import Geminon.Fs
import Geminon.Separated

namespace Geminon
open Memory Separated
set_option autoImplicit true

def segments (file : List UInt8) : List (List UInt8) := file.splitOn slash

inductive Token where
  | dir (name : List UInt8)
  | up
  | done
  | err
  deriving DecidableEq, Repr

/-- The tokens of a path; `dots` octets still stand in the component buffer. -/
def tokens (dots : Nat) : List (List UInt8) → List Token
  | [] => [.done]
  | seg :: rest =>
    if geminiMaxPath - 1 < dots + seg.length then [.err]
    else if seg = [] then tokens dots rest
    else if seg = [dot] then tokens (dots + 1) rest
    else if seg = [dot, dot] then .up :: tokens 0 rest
    else .dir (List.replicate dots dot ++ seg) :: tokens 0 rest

theorem tokens_long (h : geminiMaxPath - 1 < dots + seg.length) :
    tokens dots (seg :: rest) = [.err] := by
  rw [tokens, if_pos h]

theorem tokens_empty (h : dots ≤ geminiMaxPath - 1) :
    tokens dots ([] :: rest) = tokens dots rest := by
  rw [tokens, if_neg (by simp; omega), if_pos rfl]

theorem tokens_dot (h : dots + 1 ≤ geminiMaxPath - 1) :
    tokens dots ([dot] :: rest) = tokens (dots + 1) rest := by
  rw [tokens, if_neg (by simp; omega), if_neg (by simp), if_pos rfl]

theorem tokens_up (h : dots + 2 ≤ geminiMaxPath - 1) :
    tokens dots ([dot, dot] :: rest) = .up :: tokens 0 rest := by
  rw [tokens, if_neg (by simp; omega), if_neg (by simp), if_neg (by simp), if_pos rfl]

/-- A segment that is neither empty nor one of the two directory entries every directory has. -/
def IsName (seg : List UInt8) : Prop := seg ≠ [] ∧ seg ≠ [dot] ∧ seg ≠ [dot, dot]

theorem tokens_name (h : dots + seg.length ≤ geminiMaxPath - 1) (hn : IsName seg) :
    tokens dots (seg :: rest) = .dir (List.replicate dots dot ++ seg) :: tokens 0 rest := by
  rw [tokens, if_neg (by omega), if_neg hn.1, if_neg hn.2.1, if_neg hn.2.2]

theorem isName_dots (dots : Nat) (h : IsName seg) : IsName (List.replicate dots dot ++ seg) := by
  have hlong : ∀ l : List UInt8, l ≠ [] → l ≠ [dot] → IsName (dot :: l) := by
    intro l hne hdot
    refine ⟨by simp, ?_, ?_⟩
    · simpa using hne
    · simpa using hdot
  induction dots with
  | zero => exact h
  | succ dots ih =>
    rw [List.replicate_succ, List.cons_append]
    exact hlong _ ih.1 ih.2.1

theorem foldl_advance_four (seg : List UInt8) : seg.foldl advance 4 = 4 := by
  induction seg with
  | nil => rfl
  | cons c seg ih => simpa [advance] using ih

theorem foldl_advance_name (h : IsName seg) : seg.foldl advance 1 = 4 := by
  obtain ⟨hne, hdot, hdots⟩ := h
  cases seg with
  | nil => exact absurd rfl hne
  | cons c seg =>
    by_cases hc : c = dot
    · subst c
      cases seg with
      | nil => exact absurd rfl hdot
      | cons d seg =>
        by_cases hd : d = dot
        · subst d
          cases seg with
          | nil => exact absurd rfl hdots
          | cons e seg => simpa [advance] using foldl_advance_four seg
        · simpa [advance, hd] using foldl_advance_four seg
    · simpa [advance, hc] using foldl_advance_four seg

theorem sParsePathLoop_segment (left : Nat) (tail : List UInt8) (hs : 1 ≤ state ∧ state ≤ 4)
    (hseg : slash ∉ seg)
    (hb : buf.Starts name) (hl : name.length + left = geminiMaxPath - 1)
    (hfit : seg.length ≤ left) :
    ∃ buf', buf'.Starts (name ++ seg) ∧
      sParsePathLoop buf state name.length left (seg ++ tail) =
        sParsePathLoop buf' (seg.foldl advance state) (name ++ seg).length
          (left - seg.length) tail := by
  induction seg generalizing buf state name left with
  | nil => exact ⟨buf, by simpa using hb, by simp⟩
  | cons c seg ih =>
    simp only [List.mem_cons, not_or] at hseg
    simp only [List.length_cons] at hfit
    have hlt : name.length < geminiMaxPath := by
      have : geminiMaxPath = 2048 := rfl
      omega
    obtain ⟨buf₁, hstore, hb₁⟩ := hb.store hlt c
    obtain ⟨buf₂, hb₂, he⟩ := ih (left - 1) (advance_range state c) hseg.2 hb₁
      (by simp; omega) (by omega)
    refine ⟨buf₂, by simpa using hb₂, ?_⟩
    rw [List.cons_append, sParsePathLoop_octet hs (Ne.symm hseg.1), if_neg (by omega), hstore]
    simp only [List.length_append, List.length_singleton] at he
    simp only [Except.bind, he, List.foldl_cons]
    congr 1
    · simp; omega
    · simp; omega

theorem sParsePathLoop_long (left : Nat) (tail : List UInt8) (hs : 1 ≤ state ∧ state ≤ 4)
    (hseg : slash ∉ seg)
    (hb : buf.Starts name) (hl : name.length + left = geminiMaxPath - 1)
    (hlong : left < seg.length) :
    ∃ p, sParsePathLoop buf state name.length left (seg ++ tail) = .ok (.err, p) := by
  induction seg generalizing buf state name left with
  | nil => simp at hlong
  | cons c seg ih =>
    simp only [List.mem_cons, not_or] at hseg
    simp only [List.length_cons] at hlong
    rw [List.cons_append, sParsePathLoop_octet hs (Ne.symm hseg.1)]
    by_cases h0 : left = 0
    · exact ⟨_, if_pos h0⟩
    · have hlt : name.length < geminiMaxPath := by
        have : geminiMaxPath = 2048 := rfl
        omega
      obtain ⟨buf₁, hstore, hb₁⟩ := hb.store hlt c
      obtain ⟨p, he⟩ := ih (left - 1) (advance_range state c) hseg.2 hb₁
        (by simp; omega) (by omega)
      refine ⟨p, ?_⟩
      rw [if_neg h0, hstore]
      simpa [Except.bind] using he

/-- What a call reports about `src`, and from where the next call goes on. -/
def Reports (dots : Nat) (src : List UInt8) : Parsed → Parser → Prop
  | .dir, p => ∃ name, p.buf.Holds name ∧
      tokens dots (segments src) = .dir name :: tokens 0 (segments p.src)
  | .up, p => tokens dots (segments src) = .up :: tokens 0 (segments p.src)
  | .done, _ => tokens dots (segments src) = [.done]
  | .err, _ => tokens dots (segments src) = [.err]

theorem tokens_segments_slash (rest : List UInt8) :
    tokens 0 (segments (slash :: rest)) = tokens 0 (segments rest) := by
  have he : segments (slash :: rest) = [] :: segments rest :=
    List.splitOn_append_cons_self_of_not_mem List.not_mem_nil rest
  rw [he, tokens_empty (Nat.zero_le _)]

theorem reports_err (h : geminiMaxPath - 1 < dots + seg.length)
    (hseg : segments src = seg :: segs) (p : Parser) : Reports dots src .err p := by
  rw [Reports, hseg, tokens_long h]

theorem sParsePathLoop_token (segs : List (List UInt8)) (hseg : slash ∉ seg) (h0 : 0 ∉ seg)
    (hup : seg ≠ [])
    (hdot : seg ≠ [dot]) (hb : buf.Starts (List.replicate dots dot))
    (hfit : dots + seg.length ≤ geminiMaxPath - 1)
    (hsegs : segments (seg ++ tail) = seg :: segs)
    (htail : tail = [] ∨ ∃ rest, tail = slash :: rest)
    (hnext : tokens 0 segs = tokens 0 (segments tail)) :
    ∃ r p, sParsePathLoop buf 1 dots (geminiMaxPath - 1 - dots) (seg ++ tail) = .ok (r, p) ∧
      Reports dots (seg ++ tail) r p := by
  obtain ⟨buf₁, hb₁, he⟩ := sParsePathLoop_segment (geminiMaxPath - 1 - dots) tail
    ⟨Nat.le_refl 1, by omega⟩ hseg hb (by simp; omega) (by omega)
  rw [List.length_replicate] at he
  by_cases hdots : seg = [dot, dot]
  · subst seg
    refine ⟨.up, ⟨tail, buf₁⟩, ?_, ?_⟩
    · rw [he]
      rcases htail with rfl | ⟨rest, rfl⟩
      · rfl
      · exact sParsePathLoop_up
    · rw [Reports, hsegs, tokens_up hfit, hnext]
  · have hname : IsName seg := ⟨hup, hdot, hdots⟩
    have hlen : (List.replicate dots dot ++ seg).length < geminiMaxPath := by
      have : geminiMaxPath = 2048 := rfl
      simp; omega
    obtain ⟨buf₂, hstore, hb₂⟩ := hb₁.store hlen 0
    have hnul : 0 ∉ List.replicate dots dot ++ seg := by
      rw [List.mem_append, List.mem_replicate]
      intro hmem
      obtain ⟨_, hd⟩ | hd := hmem
      · cases hd
      · exact h0 hd
    refine ⟨.dir, ⟨tail, buf₂⟩, ?_, ?_⟩
    · rw [he, foldl_advance_name hname]
      rcases htail with rfl | ⟨rest, rfl⟩
      · simp only [sParsePathLoop, hstore]
        rfl
      · rw [sParsePathLoop_dir, hstore]
        rfl
    · exact ⟨_, hb₂.holds hnul, by rw [hsegs, tokens_name hfit hname, hnext]⟩

theorem sParsePathLoop_reports_err (hseg : slash ∉ seg)
    (hb : buf.Starts (List.replicate dots dot)) (hdots : dots ≤ geminiMaxPath - 1)
    (hlong : geminiMaxPath - 1 < dots + seg.length)
    (hsegs : segments (seg ++ tail) = seg :: segs) :
    ∃ r p, sParsePathLoop buf 1 dots (geminiMaxPath - 1 - dots) (seg ++ tail) = .ok (r, p) ∧
      Reports dots (seg ++ tail) r p := by
  obtain ⟨p, he⟩ := sParsePathLoop_long (geminiMaxPath - 1 - dots) tail
    ⟨Nat.le_refl 1, by omega⟩ hseg hb (by simp; omega) (by omega)
  rw [List.length_replicate] at he
  exact ⟨.err, p, he, reports_err hlong hsegs p⟩

/-- After a `.` segment the loop stands in row 2, with one more octet in the buffer. -/
theorem sParsePathLoop_dotted (hb : buf.Starts (List.replicate dots dot))
    (hfit : dots + 1 ≤ geminiMaxPath - 1) (tail : List UInt8) :
    ∃ buf', buf'.Starts (List.replicate (dots + 1) dot) ∧
      sParsePathLoop buf 1 dots (geminiMaxPath - 1 - dots) (dot :: tail) =
        sParsePathLoop buf' 2 (dots + 1) (geminiMaxPath - 1 - (dots + 1)) tail := by
  obtain ⟨buf', hb', he⟩ := sParsePathLoop_segment (geminiMaxPath - 1 - dots) tail
    ⟨Nat.le_refl 1, by omega⟩ (by decide : slash ∉ [dot]) hb (by simp; omega) (by simp; omega)
  rw [← List.replicate_succ'] at hb' he
  simp only [List.length_replicate] at he
  exact ⟨buf', hb', he⟩

/-- A call reports the first token of what is left, whatever the component buffer held. -/
theorem sParsePathLoop_reports (dots : Nat) (h0 : 0 ∉ src)
    (hb : buf.Starts (List.replicate dots dot))
    (hdots : dots ≤ geminiMaxPath - 1) :
    ∃ r p, sParsePathLoop buf 1 dots (geminiMaxPath - 1 - dots) src = .ok (r, p) ∧
      Reports dots src r p := by
  induction hn : src.length using Nat.strong_induction_on generalizing buf dots src with
  | _ n ih =>
    rcases splitOn_cut slash src with ⟨hs, hsegs⟩ | ⟨seg, rest, hs, rfl, hsegs⟩
    · rw [← List.append_nil src] at hsegs h0 ⊢
      by_cases hlong : geminiMaxPath - 1 < dots + src.length
      · exact sParsePathLoop_reports_err hs hb hdots hlong (by simpa [segments] using hsegs)
      by_cases hnil : src = []
      · subst src
        refine ⟨.done, ⟨[], buf⟩, rfl, ?_⟩
        rw [Reports, segments, hsegs, List.append_nil, tokens_empty hdots, tokens]
      by_cases hdot : src = [dot]
      · subst src
        have hfit : dots + 1 ≤ geminiMaxPath - 1 := Nat.le_of_not_lt hlong
        obtain ⟨buf', hb', he⟩ := sParsePathLoop_dotted hb hfit []
        refine ⟨.done, ⟨[], buf'⟩, he, ?_⟩
        rw [Reports, segments, hsegs, List.append_nil, tokens_dot hfit, tokens]
      · exact sParsePathLoop_token [] hs (by simpa using h0) hnil hdot hb (by omega)
          (by simpa [segments] using hsegs) (.inl rfl) rfl
    · have h0s : 0 ∉ seg ∧ 0 ∉ rest :=
        ⟨fun h => h0 (by simp [h]), fun h => h0 (by simp [h])⟩
      simp only [List.length_append, List.length_cons] at hn
      by_cases hlong : geminiMaxPath - 1 < dots + seg.length
      · exact sParsePathLoop_reports_err hs hb hdots hlong hsegs
      by_cases hnil : seg = []
      · subst seg
        obtain ⟨r, p, he, hr⟩ := ih rest.length (by omega) dots h0s.2 hb hdots rfl
        refine ⟨r, p, ?_, ?_⟩
        · rw [List.nil_append, sParsePathLoop_skip (.inl rfl), he]
        · cases r <;> simpa only [Reports, segments, hsegs, tokens_empty hdots] using hr
      by_cases hdot : seg = [dot]
      · subst seg
        have hfit : dots + 1 ≤ geminiMaxPath - 1 := Nat.le_of_not_lt hlong
        obtain ⟨buf', hb', he'⟩ := sParsePathLoop_dotted hb hfit (slash :: rest)
        obtain ⟨r, p, he, hr⟩ := ih rest.length (by omega) (dots + 1) h0s.2 hb' hfit rfl
        refine ⟨r, p, ?_, ?_⟩
        · rw [List.singleton_append, he', sParsePathLoop_skip (.inr rfl), he]
        · cases r <;> simpa only [Reports, segments, hsegs, tokens_dot hfit] using hr
      · exact sParsePathLoop_token _ hs h0s.1 hnil hdot hb (by omega) hsegs (.inr ⟨rest, rfl⟩)
          (tokens_segments_slash rest).symm

theorem sParsePath_reports (p : Parser) (h0 : 0 ∉ p.src) :
    ∃ r p', sParsePath p = .ok (r, p') ∧ Reports 0 p.src r p' :=
  sParsePathLoop_reports 0 h0 p.buf.starts_nil (Nat.zero_le _)

end Geminon
