import Geminon.Resolve

namespace Geminon
open Memory Separated
set_option autoImplicit true

/-- Wherever a call begins, it keeps to its buffer, and what it reports is a component. -/
theorem sParsePath_component (file : CStr) (n : Nat) (buf : Buf geminiMaxPath) :
    ∃ r p, sParsePath ⟨(file.drop n).octets, buf⟩ = .ok (r, p) ∧
      (r = .dir → ∃ name, p.buf.Holds name ∧ Component name) := by
  obtain ⟨r, p, hcall, hreports⟩ :=
    sParsePath_reports ⟨(file.drop n).octets, buf⟩ (file.drop n).noNul
  refine ⟨r, p, hcall, fun hdir => ?_⟩
  subst r
  obtain ⟨name, hname, htokens⟩ := hreports
  have hmem : .dir name ∈ tokens 0 (segments (file.drop n).octets) := by
    rw [htokens]
    exact List.mem_cons_self
  exact ⟨name, hname, component_of_tokens (segments_plain _) hmem⟩

/-- The calls of `s_parse_path` that the loop of `gemini_fs_resolve` makes, with their results. -/
def parseCalls : Nat → Parser → Except Fault (List (Parsed × Parser))
  | 0, _ => .error .endless
  | fuel + 1, parser => do
    let (r, parser) ← sParsePath parser
    match r with
    | .err | .done => .ok [(r, parser)]
    | .dir | .up => do
      let calls ← parseCalls fuel parser
      .ok ((r, parser) :: calls)

/-- What the loop makes of its path over the calls. -/
def pathOver (path : Buf (geminiMaxPath + 1)) (deep : Nat) :
    List (Parsed × Parser) → Except Fault (Option CStr)
  | [] => .error .endless
  | (.err, _) :: _ => .ok none
  | (.dir, parser) :: calls => do
    let path ← pushDir parser.buf deep path
    pathOver path (deep + 1) calls
  | (.up, _) :: calls =>
    if 0 < deep then do
      let path ← popDir path
      pathOver path (deep - 1) calls
    else pathOver path deep calls
  | (.done, _) :: _ => .ok (some path.cstr)

inductive Advances : List UInt8 → List (Parsed × Parser) → Prop where
  | last (h : r = .done ∨ r = .err) : Advances src [(r, parser)]
  | next (h : r = .dir ∨ r = .up) (hsuffix : parser.src <:+ src)
      (hless : parser.src.length < src.length) (hcalls : Advances parser.src calls) :
      Advances src ((r, parser) :: calls)

theorem Advances.length_le (h : Advances src calls) : calls.length ≤ src.length + 1 := by
  induction h with
  | last h => exact Nat.succ_le_succ (Nat.zero_le _)
  | next h hsuffix hless hcalls ih =>
    rw [List.length_cons]
    omega

theorem parseCalls_advances (h0 : 0 ∉ parser.src) (hfuel : parser.src.length < fuel) :
    ∃ calls, parseCalls fuel parser = .ok calls ∧ Advances parser.src calls := by
  induction fuel generalizing parser with
  | zero => exact absurd hfuel (Nat.not_lt_zero _)
  | succ fuel ih =>
    obtain ⟨r, parser', hcall, _⟩ := sParsePath_reports parser h0
    have hsuffix := sParsePath_suffix hcall
    have h0' : 0 ∉ parser'.src := fun hm => h0 (hsuffix.subset hm)
    have hrest (hless : parser'.src.length < parser.src.length) :
        ∃ calls, parseCalls fuel parser' = .ok calls ∧ Advances parser'.src calls :=
      ih h0' (by omega)
    cases r with
    | err => exact ⟨_, by rw [parseCalls, hcall]; rfl, .last (.inr rfl)⟩
    | done => exact ⟨_, by rw [parseCalls, hcall]; rfl, .last (.inl rfl)⟩
    | dir =>
      have hless := sParsePath_dir_src hcall
      obtain ⟨calls, hcalls, hadvances⟩ := hrest hless
      refine ⟨(.dir, parser') :: calls, ?_, .next (.inl rfl) hsuffix hless hadvances⟩
      simp only [parseCalls, hcall, hcalls, bind, Except.bind]
    | up =>
      have hless := sParsePath_up_src hcall
      obtain ⟨calls, hcalls, hadvances⟩ := hrest hless
      refine ⟨(.up, parser') :: calls, ?_, .next (.inr rfl) hsuffix hless hadvances⟩
      simp only [parseCalls, hcall, hcalls, bind, Except.bind]

/-- The loop is its calls and what it makes of them. -/
theorem geminiFsResolveLoop_over (h : parseCalls fuel parser = .ok calls)
    (path : Buf (geminiMaxPath + 1)) (deep : Nat) :
    geminiFsResolveLoop parser path deep = pathOver path deep calls := by
  induction fuel generalizing parser calls path deep with
  | zero => cases h
  | succ fuel ih =>
    obtain ⟨⟨r, parser'⟩, hcall, h⟩ := bind_eq_ok h
    rw [geminiFsResolveLoop]
    cases r with
    | err =>
      cases h
      rw [hcall]
      rfl
    | done =>
      cases h
      rw [hcall]
      rfl
    | dir =>
      obtain ⟨calls', hcalls, h⟩ := bind_eq_ok h
      cases h
      rw [hcall, pathOver]
      cases hpush : pushDir parser'.buf deep path with
      | error fault =>
        simp only [hpush]
        rfl
      | ok path' =>
        simp only [hpush]
        exact ih hcalls path' (deep + 1)
    | up =>
      obtain ⟨calls', hcalls, h⟩ := bind_eq_ok h
      cases h
      rw [hcall, pathOver]
      by_cases hdeep : 0 < deep
      · simp only [hdeep, ↓reduceIte]
        cases hpop : popDir path with
        | error fault => rfl
        | ok path' => exact ih hcalls path' (deep - 1)
      · simp only [hdeep, ↓reduceIte]
        exact ih hcalls path deep

/-- Within one call for each octet of the file and one more the loop has come to an end. -/
theorem geminiFsResolve_calls (file : CStr) :
    ∃ calls, parseCalls (file.length + 1) ⟨file.octets, .zeroed _⟩ = .ok calls ∧
      Advances file.octets calls ∧ calls.length ≤ file.length + 1 ∧
      geminiFsResolve true file = pathOver (.zeroed _) 0 calls := by
  obtain ⟨calls, hcalls, hadvances⟩ : ∃ calls,
      parseCalls (file.length + 1) ⟨file.octets, .zeroed _⟩ = .ok calls ∧
        Advances file.octets calls := parseCalls_advances file.noNul (Nat.lt_succ_self _)
  exact ⟨calls, hcalls, hadvances, hadvances.length_le, geminiFsResolveLoop_over hcalls _ _⟩

end Geminon
