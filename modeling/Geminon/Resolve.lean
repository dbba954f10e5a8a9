import Geminon.PathTokens

namespace Geminon
open Memory Separated
set_option autoImplicit true

/-- The names standing after a run of tokens, the first directory first. -/
def standing (names : List (List UInt8)) : List Token → List (List UInt8)
  | [] => names
  | .dir name :: toks => standing (names ++ [name]) toks
  | .up :: toks => standing names.dropLast toks
  | _ :: toks => standing names toks

/-- Joined, the names leave no room for a slash and a further octet. -/
def Overfull (names : List (List UInt8)) : Prop :=
  names ≠ [] ∧ geminiMaxPath - 1 ≤ (joined slash names).length

instance (names : List (List UInt8)) : Decidable (Overfull names) :=
  inferInstanceAs (Decidable (_ ∧ _))

theorem overfull_of_dropLast (h : Overfull names.dropLast) : Overfull names := by
  have hne : names ≠ [] := by
    intro he
    exact h.1 (by rw [he, List.dropLast_nil])
  refine ⟨hne, ?_⟩
  rw [← List.dropLast_append_getLast hne, joined_concat h.1, List.length_append]
  exact Nat.le_add_right_of_le h.2

/-- What `gemini_fs_resolve` makes of a token stream, over names in place of its buffer. -/
def resolveTokens (names : List (List UInt8)) : List Token → Except Fault (Option (List UInt8))
  | [] => .ok none
  | .dir name :: toks =>
    if Overfull names then .error .wrap else resolveTokens (names ++ [name]) toks
  | .up :: toks => resolveTokens names.dropLast toks
  | .done :: _ => .ok (some ((joined slash names).take (geminiMaxPath - 1)))
  | .err :: _ => .ok none

theorem copyOctets_ok (buf : Buf geminiMaxPath) (q left : Nat)
    {path : Buf (geminiMaxPath + 1)} (hp : path.Starts s) (hq : q + left ≤ geminiMaxPath)
    (hs : s.length + left ≤ geminiMaxPath + 1) :
    ∃ path', copyOctets buf left s.length q path = .ok (s.length + left, path') ∧
      path'.Starts (s ++ (buf.octets.drop q).take left) := by
  induction left generalizing s q path with
  | zero => exact ⟨path, rfl, by simpa using hp⟩
  | succ left ih =>
    obtain ⟨c, hload, hc⟩ := buf.load_lt (i := q) (by omega)
    obtain ⟨path₁, hstore, hp₁⟩ := hp.store (by omega) c
    obtain ⟨path₂, he, hp₂⟩ := ih (q + 1) hp₁ (by omega) (by simp; omega)
    refine ⟨path₂, ?_, ?_⟩
    · simp only [List.length_append, List.length_singleton] at he
      simp only [copyOctets, hload, hstore, bind, Except.bind, he]
      rw [Nat.add_right_comm, Nat.add_assoc]
    · have hlt : q < buf.octets.length := (List.getElem?_eq_some_iff.1 hc).1
      have hd : buf.octets.drop q = c :: buf.octets.drop (q + 1) := by
        rw [List.drop_eq_getElem_cons hlt, (List.getElem?_eq_some_iff.1 hc).2]
      simpa [hd] using hp₂

theorem copyOctets_holds (left : Nat) {buf : Buf geminiMaxPath}
    {path : Buf (geminiMaxPath + 1)} (hp : path.Starts s) (h0 : 0 ∉ s) (hb : buf.Holds name)
    (hs : s.length + left = geminiMaxPath - 1) :
    ∃ path₁ path₂, copyOctets buf left s.length 0 path = .ok (geminiMaxPath - 1, path₁) ∧
      path₁.store (geminiMaxPath - 1) 0 = .ok path₂ ∧
      path₂.Holds ((s ++ name).take (geminiMaxPath - 1)) := by
  have hmax : geminiMaxPath = 2048 := rfl
  obtain ⟨path₁, he, hp₁⟩ := copyOctets_ok buf 0 left hp (by omega) (by omega)
  have hlen : (s ++ (buf.octets.drop 0).take left).length = geminiMaxPath - 1 := by
    rw [List.drop_zero, List.length_append, List.length_take, buf.size]
    omega
  obtain ⟨path₂, hstore, hp₂⟩ := hp₁.store (by omega) 0
  obtain ⟨hname, junk, hj⟩ := hb
  rw [hlen] at hstore
  rw [List.drop_zero, hj] at hp₂
  refine ⟨path₁, path₂, by rw [he, hs], hstore, ?_⟩
  rw [List.take_append, List.take_of_length_le (by omega : s.length ≤ geminiMaxPath - 1),
    show geminiMaxPath - 1 - s.length = left by omega]
  exact hp₂.holds_take h0 hname

theorem pushDir_first {path : Buf (geminiMaxPath + 1)} (hp : path.Holds [])
    (hb : buf.Holds name) :
    ∃ path', pushDir buf 0 path = .ok path' ∧ path'.Holds (name.take (geminiMaxPath - 1)) := by
  obtain ⟨path₁, path₂, hcopy, hstore, hp₂⟩ := copyOctets_holds (geminiMaxPath - 1)
    hp.starts hp.1 hb (by simp)
  refine ⟨path₂, ?_, by simpa using hp₂⟩
  simp only [List.length_nil] at hcopy
  simp only [pushDir, hp.strlen_eq, List.length_nil, bind, Except.bind,
    sizeSub_of_le (Nat.zero_le geminiMaxPath), sizeSub_of_le (by decide : 1 ≤ geminiMaxPath),
    Nat.lt_irrefl, ↓reduceIte, Nat.sub_zero, hcopy, hstore]

theorem pushDir_next {path : Buf (geminiMaxPath + 1)} (hp : path.Holds s) (hb : buf.Holds name)
    (hd : 0 < deep) (hs : s.length < geminiMaxPath - 1) :
    ∃ path', pushDir buf deep path = .ok path' ∧
      path'.Holds ((s ++ slash :: name).take (geminiMaxPath - 1)) := by
  have hmax : geminiMaxPath = 2048 := rfl
  obtain ⟨path₀, hslash, hp₀⟩ := hp.starts.store (by omega) slash
  have h0 : 0 ∉ s ++ [slash] := by
    rw [List.mem_append, List.mem_singleton]
    exact fun h => h.elim hp.1 (by decide)
  obtain ⟨path₁, path₂, hcopy, hstore, hp₂⟩ := copyOctets_holds
    (geminiMaxPath - s.length - 1 - 1) hp₀ h0 hb (by simp; omega)
  refine ⟨path₂, ?_, by simpa using hp₂⟩
  simp only [List.length_append, List.length_singleton] at hcopy
  simp only [pushDir, hp.strlen_eq, bind, Except.bind, hd, ↓reduceIte, hslash,
    sizeSub_of_le (by omega : s.length ≤ geminiMaxPath),
    sizeSub_of_le (by omega : 1 ≤ geminiMaxPath - s.length),
    sizeSub_of_le (by omega : 1 ≤ geminiMaxPath - s.length - 1), hcopy, hstore]

/-- With the path at its limit the slash still fits, and then `left--` starts from zero. -/
theorem pushDir_wrap {path : Buf (geminiMaxPath + 1)} (hp : path.Holds s) (hd : 0 < deep)
    (hs : s.length = geminiMaxPath - 1) (buf : Buf geminiMaxPath) :
    pushDir buf deep path = .error .wrap := by
  have hmax : geminiMaxPath = 2048 := rfl
  obtain ⟨path₀, hslash, hp₀⟩ := hp.starts.store (by omega) slash
  simp only [pushDir, hp.strlen_eq, bind, Except.bind, hd, ↓reduceIte, hslash,
    sizeSub_of_le (by omega : s.length ≤ geminiMaxPath),
    sizeSub_of_le (by omega : 1 ≤ geminiMaxPath - s.length),
    sizeSub_of_lt (by omega : geminiMaxPath - s.length - 1 < 1)]

theorem popDir_ok {path : Buf (geminiMaxPath + 1)} (hp : path.Holds s) :
    ∃ path', popDir path = .ok path' ∧
      path'.Holds (s.take ((lastIndexOf slash s).getD 0)) := by
  obtain ⟨path', hstore, hp'⟩ := hp.cut (lastIndexOf_le slash s)
  refine ⟨path', ?_, hp'⟩
  simp only [popDir, hp.strrchr_eq, bind, Except.bind, hstore]

/-- Buffer and counter stand for a list of names, of which only the last may have been cut. -/
structure Tracks (names : List (List UInt8)) (path : Buf (geminiMaxPath + 1)) (deep : Nat) :
    Prop where
  deep_eq : deep = names.length
  holds : path.Holds ((joined slash names).take (geminiMaxPath - 1))
  plain : ∀ name ∈ names, slash ∉ name
  below : ¬ Overfull names.dropLast

theorem Tracks.start : Tracks [] (.zeroed (geminiMaxPath + 1)) 0 where
  deep_eq := rfl
  holds := Buf.zeroed_holds _
  plain := by simp
  below := fun h => h.1 rfl

theorem Tracks.push (h : Tracks names path deep) (hb : buf.Holds name) (hs : slash ∉ name)
    (hfull : ¬ Overfull names) :
    ∃ path', pushDir buf deep path = .ok path' ∧ Tracks (names ++ [name]) path' (deep + 1) := by
  have hplain : ∀ n ∈ names ++ [name], slash ∉ n := by
    intro n hn
    rcases List.mem_append.1 hn with hn | hn
    · exact h.plain n hn
    · rw [List.mem_singleton.1 hn]
      exact hs
  have hbelow : ¬ Overfull (names ++ [name]).dropLast := by
    rw [List.dropLast_concat]
    exact hfull
  by_cases hne : names = []
  · subst names
    have hd := h.deep_eq
    subst deep
    obtain ⟨path', hpush, hp'⟩ := pushDir_first (by simpa using h.holds) hb
    exact ⟨path', hpush, ⟨rfl, by simpa using hp', hplain, hbelow⟩⟩
  · have hlt : (joined slash names).length < geminiMaxPath - 1 := by
      by_contra hge
      exact hfull ⟨hne, Nat.le_of_not_lt hge⟩
    have hp := h.holds
    rw [List.take_of_length_le (Nat.le_of_lt hlt)] at hp
    have hd : 0 < deep := by
      rw [h.deep_eq]
      exact List.length_pos_of_ne_nil hne
    obtain ⟨path', hpush, hp'⟩ := pushDir_next hp hb hd hlt
    rw [← joined_concat hne] at hp'
    exact ⟨path', hpush, ⟨by simp [h.deep_eq], hp', hplain, hbelow⟩⟩

theorem Tracks.push_wrap (h : Tracks names path deep) (buf : Buf geminiMaxPath)
    (hfull : Overfull names) : pushDir buf deep path = .error .wrap := by
  apply pushDir_wrap h.holds
  · rw [h.deep_eq]
    exact List.length_pos_of_ne_nil hfull.1
  · rw [List.length_take]
    exact Nat.min_eq_left hfull.2

theorem Tracks.pop (h : Tracks names path deep) (hd : 0 < deep) :
    ∃ path', popDir path = .ok path' ∧ Tracks names.dropLast path' (deep - 1) := by
  obtain ⟨path', hpop, hp'⟩ := popDir_ok h.holds
  refine ⟨path', hpop, ⟨by simp [h.deep_eq], ?_, ?_, ?_⟩⟩
  · have hne : names ≠ [] := by
      intro he
      rw [h.deep_eq, he] at hd
      exact Nat.lt_irrefl 0 hd
    obtain ⟨front, last, rfl⟩ : ∃ front last, names = front ++ [last] :=
      ⟨_, _, (List.dropLast_append_getLast hne).symm⟩
    have hlast : slash ∉ last := h.plain last (by simp)
    rw [List.dropLast_concat] at *
    by_cases hf : front = []
    · subst front
      have hno : slash ∉ last.take (geminiMaxPath - 1) := fun hm => hlast (List.mem_of_mem_take hm)
      simpa [lastIndexOf_eq_none hno] using hp'
    · have hlt : (joined slash front).length < geminiMaxPath - 1 := by
        by_contra hge
        have hb := h.below
        rw [List.dropLast_concat] at hb
        exact hb ⟨hf, Nat.le_of_not_lt hge⟩
      obtain ⟨k, hk⟩ : ∃ k, geminiMaxPath - 1 - (joined slash front).length = k + 1 :=
        ⟨_, (Nat.succ_pred_eq_of_pos (Nat.sub_pos_of_lt hlt)).symm⟩
      have hno : slash ∉ last.take k := fun hm => hlast (List.mem_of_mem_take hm)
      rw [joined_concat hf, List.take_append, hk, List.take_succ_cons,
        List.take_of_length_le (Nat.le_of_lt hlt), lastIndexOf_append_cons _ hno,
        Option.getD_some, List.take_left] at hp'
      rwa [List.take_of_length_le (Nat.le_of_lt hlt)]
  · exact fun n hn => h.plain n (List.dropLast_subset names hn)
  · exact fun hfull => h.below (overfull_of_dropLast hfull)

/-- What a reported component looks like. -/
structure Component (name : List UInt8) : Prop where
  isName : IsName name
  plain : slash ∉ name
  short : name.length ≤ geminiMaxPath - 1

theorem component_of_tokens {segs : List (List UInt8)} (hsegs : ∀ seg ∈ segs, slash ∉ seg)
    (h : .dir name ∈ tokens dots segs) : Component name := by
  induction segs generalizing dots with
  | nil => simp [tokens] at h
  | cons seg segs ih =>
    have hrest := fun s hs => hsegs s (List.mem_cons_of_mem _ hs)
    rw [tokens] at h
    split at h
    · simp at h
    split at h
    · exact ih hrest h
    split at h
    · exact ih hrest h
    split at h
    · exact ih hrest (by simpa using h)
    · rename_i hfit hne hdot hup
      rcases List.mem_cons.1 h with he | h
      · cases he
        refine ⟨isName_dots dots ⟨hne, hdot, hup⟩, ?_, by simp; omega⟩
        rw [List.mem_append, List.mem_replicate]
        intro hmem
        obtain ⟨_, hd⟩ | hd := hmem
        · cases hd
        · exact hsegs seg (by simp) hd
      · exact ih hrest h

theorem segments_plain (file : List UInt8) : ∀ seg ∈ segments file, slash ∉ seg := by
  induction hn : file.length using Nat.strong_induction_on generalizing file with
  | _ n ih =>
    rcases splitOn_cut slash file with ⟨hs, hsegs⟩ | ⟨seg, rest, hs, rfl, hsegs⟩
    · rw [segments, hsegs]
      simpa using hs
    · rw [segments, hsegs]
      intro s hmem
      rcases List.mem_cons.1 hmem with rfl | hmem
      · exact hs
      · exact ih rest.length (by simp at hn; omega) rest rfl s hmem

/-- The loop computes what its token stream says, fault for fault. -/
theorem geminiFsResolveLoop_eq (h0 : 0 ∉ parser.src) (h : Tracks names path deep) :
    (geminiFsResolveLoop parser path deep).map (Option.map CStr.octets) =
      resolveTokens names (tokens 0 (segments parser.src)) := by
  induction hn : parser.src.length using Nat.strong_induction_on
      generalizing parser names path deep with
  | _ n ih =>
    obtain ⟨r, parser', he, hr⟩ := sParsePath_reports parser h0
    have h0' : 0 ∉ parser'.src := fun hm => h0 ((sParsePath_suffix he).subset hm)
    rw [geminiFsResolveLoop]
    cases r with
    | err =>
      rw [he, hr]
      rfl
    | done =>
      rw [he, hr]
      change Except.ok (some path.str) = _
      rw [h.holds.str_eq]
      rfl
    | up =>
      have hlt := sParsePath_up_src he
      rw [he, hr, resolveTokens]
      by_cases hd : 0 < deep
      · obtain ⟨path', hpop, h'⟩ := h.pop hd
        simp only [hd, ↓reduceIte, hpop]
        exact ih _ (by omega) h0' h' rfl
      · have hnil : names = [] := by
          rw [← List.length_eq_zero_iff, ← h.deep_eq]
          omega
        simp only [hd, ↓reduceIte, hnil, List.dropLast_nil]
        exact ih _ (by omega) h0' (hnil ▸ h) rfl
    | dir =>
      have hlt := sParsePath_dir_src he
      obtain ⟨name, hb, hr⟩ := hr
      have hc : Component name := by
        have hmem : .dir name ∈ tokens 0 (segments parser.src) := by
          rw [hr]
          exact List.mem_cons_self
        exact component_of_tokens (segments_plain parser.src) hmem
      rw [he, hr, resolveTokens]
      by_cases hfull : Overfull names
      · simp only [h.push_wrap parser'.buf hfull, if_pos hfull]
        rfl
      · obtain ⟨path', hpush, h'⟩ := h.push hb hc.plain hfull
        simp only [hpush, if_neg hfull]
        exact ih _ (by omega) h0' h' rfl

theorem geminiFsResolve_eq (file : CStr) :
    (geminiFsResolve true file).map (Option.map CStr.octets) =
      resolveTokens [] (tokens 0 (segments file.octets)) :=
  geminiFsResolveLoop_eq file.noNul .start

/-- `left` is not taken below zero, and no access leaves `path` or `parser.buf`. -/
def StaysInside (file : CStr) : Prop :=
  ∀ malloc fault, geminiFsResolve malloc file ≠ .error fault

theorem tokens_end (h : tokens dots segs = front ++ tok :: toks) :
    .done ∉ front ∧ .err ∉ front := by
  induction segs generalizing dots front with
  | nil =>
    cases front with
    | nil => simp
    | cons t front => simp [tokens] at h
  | cons seg segs ih =>
    have hcons {t : Token} {rest : List Token} (ht : t ≠ .done ∧ t ≠ .err)
        (hrest : ∀ front, rest = front ++ tok :: toks → .done ∉ front ∧ .err ∉ front)
        (h : t :: rest = front ++ tok :: toks) : .done ∉ front ∧ .err ∉ front := by
      cases front with
      | nil => simp
      | cons u front =>
        simp only [List.cons_append, List.cons.injEq] at h
        obtain ⟨hd, he⟩ := hrest front h.2
        rw [← h.1, List.mem_cons, List.mem_cons]
        exact ⟨fun hm => hm.elim (fun he => ht.1 he.symm) hd,
          fun hm => hm.elim (fun he => ht.2 he.symm) he⟩
    rw [tokens] at h
    split at h
    · cases front with
      | nil => simp
      | cons t front => simp at h
    split at h
    · exact ih h
    split at h
    · exact ih h
    split at h
    · exact hcons (by simp) (fun front h => ih h) h
    · exact hcons (by simp) (fun front h => ih h) h

/-- Some name arrives while the names standing leave no room for it. -/
def Overruns (names : List (List UInt8)) (toks : List Token) : Prop :=
  ∃ front name rest, toks = front ++ .dir name :: rest ∧ .done ∉ front ∧ .err ∉ front ∧
    Overfull (standing names front)

theorem overruns_cons (hd : tok ≠ .done) (he : tok ≠ .err) :
    Overruns names (tok :: toks) ↔
      (∃ name, tok = .dir name ∧ Overfull names) ∨ Overruns (standing names [tok]) toks := by
  have hstep (front : List Token) :
      standing names (tok :: front) = standing (standing names [tok]) front := by
    cases tok <;> rfl
  constructor
  · intro hover
    obtain ⟨front, name, rest, h, hfd, hfe, hfull⟩ := hover
    cases front with
    | nil =>
      simp only [List.nil_append, List.cons.injEq] at h
      exact .inl ⟨name, h.1, hfull⟩
    | cons t front =>
      simp only [List.cons_append, List.cons.injEq] at h
      obtain ⟨rfl, rfl⟩ := h
      rw [List.mem_cons, not_or] at hfd hfe
      exact .inr ⟨front, name, rest, rfl, hfd.2, hfe.2, by rwa [hstep] at hfull⟩
  · intro hover
    obtain ⟨name, rfl, hfull⟩ | ⟨front, name, rest, rfl, hfd, hfe, hfull⟩ := hover
    · exact ⟨[], name, toks, rfl, List.not_mem_nil, List.not_mem_nil, hfull⟩
    · refine ⟨tok :: front, name, rest, rfl, ?_, ?_, by rwa [hstep]⟩
      · rw [List.mem_cons, not_or]
        exact ⟨Ne.symm hd, hfd⟩
      · rw [List.mem_cons, not_or]
        exact ⟨Ne.symm he, hfe⟩

theorem not_overruns_end (h : tok = .done ∨ tok = .err) : ¬ Overruns names (tok :: toks) := by
  intro hover
  obtain ⟨front, name, rest, he, hd, hr, _⟩ := hover
  cases front with
  | nil =>
    simp only [List.nil_append, List.cons.injEq] at he
    rcases h with rfl | rfl
    · cases he.1
    · cases he.1
  | cons t front =>
    simp only [List.cons_append, List.cons.injEq] at he
    rcases h with rfl | rfl
    · exact hd (by simp [he.1])
    · exact hr (by simp [he.1])

theorem resolveTokens_fault_iff (toks : List Token) (names : List (List UInt8)) :
    (∃ fault, resolveTokens names toks = .error fault) ↔ Overruns names toks := by
  induction toks generalizing names with
  | nil => simp [resolveTokens, Overruns]
  | cons tok toks ih =>
    cases tok with
    | dir name =>
      rw [overruns_cons (by simp) (by simp)]
      by_cases hfull : Overfull names
      · simp [resolveTokens, hfull]
      · simpa [resolveTokens, hfull, standing] using ih _
    | up =>
      rw [overruns_cons (by simp) (by simp)]
      simpa [resolveTokens, standing] using ih _
    | done => simp [resolveTokens, not_overruns_end]
    | err => simp [resolveTokens, not_overruns_end]

/-- No component comes while those standing, joined by slashes, already take 2047 octets. -/
def Fits (octets : List UInt8) : Prop :=
  ∀ front name rest, tokens 0 (segments octets) = front ++ .dir name :: rest →
    ¬ Overfull (standing [] front)

theorem geminiFsResolve_faultless_iff (file : CStr) :
    (∀ malloc fault, geminiFsResolve malloc file ≠ .error fault) ↔ Fits file.octets := by
  have hfault : (∀ malloc fault, geminiFsResolve malloc file ≠ .error fault) ↔
      ¬ Overruns [] (tokens 0 (segments file.octets)) := by
    rw [← resolveTokens_fault_iff, ← geminiFsResolve_eq]
    constructor
    · intro h hfault
      obtain ⟨fault, he⟩ := hfault
      cases hr : geminiFsResolve true file with
      | error fault => exact h true fault hr
      | ok r => rw [hr] at he; cases he
    · intro h malloc fault he
      cases malloc with
      | false => cases he
      | true => exact h ⟨fault, by rw [he]; rfl⟩
  rw [hfault]
  constructor
  · intro h front name rest he hfull
    obtain ⟨hd, hr⟩ := tokens_end he
    exact h ⟨front, name, rest, he, hd, hr, hfull⟩
  · intro h hover
    obtain ⟨front, name, rest, he, _, _, hfull⟩ := hover
    exact h front name rest he hfull

/-- The buffers are kept to by exactly the strings that fit. -/
theorem geminiFsResolve_staysInside_iff (file : CStr) :
    StaysInside file ↔ ∀ front name rest,
      tokens 0 (segments file.octets) = front ++ .dir name :: rest →
        ¬ Overfull (standing [] front) :=
  geminiFsResolve_faultless_iff file

/-- A component as long as the path may be, and one more behind it. -/
def overlong : CStr := ⟨List.replicate (geminiMaxPath - 1) 97 ++ [slash, 98], by
  rw [List.mem_append, List.mem_replicate]
  decide⟩

theorem isName_of_length (h : 2 < seg.length) : IsName seg := by
  refine ⟨?_, ?_, ?_⟩
  all_goals
    intro he
    rw [he] at h
    exact absurd h (by decide)

theorem component_replicate (c : UInt8) (hc : slash ≠ c) (h : 2 < n) (hn : n ≤ geminiMaxPath - 1) :
    Component (List.replicate n c) where
  isName := isName_of_length (by rwa [List.length_replicate])
  plain := by
    rw [List.mem_replicate]
    exact fun hm => hc hm.2
  short := by rwa [List.length_replicate]

theorem tokens_pair (ha : Component a) (hb : Component b) :
    tokens 0 (segments (a ++ slash :: b)) = [.dir a, .dir b, .done] := by
  have hsegs : segments (a ++ slash :: b) = [a, b] := by
    rw [segments, List.splitOn_append_cons_self_of_not_mem ha.plain,
      List.splitOn_eq_singleton hb.plain]
  have hfit {seg : List UInt8} (h : Component seg) : 0 + seg.length ≤ geminiMaxPath - 1 := by
    rw [Nat.zero_add]
    exact h.short
  rw [hsegs, tokens_name (hfit ha) ha.isName, tokens_name (hfit hb) hb.isName]
  rfl

theorem overlong_tokens : tokens 0 (segments overlong.octets) =
    [.dir (List.replicate (geminiMaxPath - 1) 97), .dir [98], .done] :=
  tokens_pair (component_replicate 97 (by decide) (by decide) (Nat.le_refl _))
    ⟨⟨by decide, by decide, by decide⟩, by decide, by decide⟩

theorem overlong_fault : geminiFsResolve true overlong = .error .wrap := by
  have he := geminiFsResolve_eq overlong
  have hfull : Overfull [List.replicate (geminiMaxPath - 1) 97] := by
    refine ⟨List.cons_ne_nil _ _, ?_⟩
    rw [joined_singleton, List.length_replicate]
  have hnil : ¬ Overfull [] := fun h => h.1 rfl
  simp only [overlong_tokens, resolveTokens, if_neg hnil, List.nil_append, if_pos hfull] at he
  cases hr : geminiFsResolve true overlong with
  | error fault =>
    rw [hr] at he
    cases he
    rfl
  | ok r => rw [hr] at he; cases he

theorem not_staysInside_overlong : ¬ StaysInside overlong :=
  fun h => h true _ overlong_fault

end Geminon
