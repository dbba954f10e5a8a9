import Geminon.Bounded
import Geminon.Client

namespace Geminon
open Memory Descriptors Process
set_option autoImplicit true

/-- `gemini_response_close`, with the descriptor that it hands to `close`. -/
def geminiResponseClose (res : GeminiResponse) : Option Nat × GeminiResponse :=
  let res := if res.ssl.isSome then { res with ssl := none } else res
  if 0 ≤ res.fd then (some res.fd.toNat, { res with fd := -1 }) else (none, res)

def responseCloses : Nat → GeminiResponse → List Nat
  | 0, _ => []
  | n + 1, res =>
    let (fd, res) := geminiResponseClose res
    fd.toList ++ responseCloses n res

theorem responseCloses_none (n : Nat) (h : res.fd < 0) : responseCloses n res = [] := by
  induction n generalizing res with
  | zero => rfl
  | succ n ih =>
    have hneg : ¬ 0 ≤ (if res.ssl.isSome then { res with ssl := none } else res).fd := by
      split <;> exact Int.not_le.2 h
    rw [responseCloses, geminiResponseClose, if_neg hneg]
    exact ih (Int.not_le.1 hneg)

theorem responseCloses_once (n : Nat) (h : 0 ≤ res.fd) :
    responseCloses (n + 1) res = [res.fd.toNat] := by
  have hfd : (if res.ssl.isSome then { res with ssl := none } else res).fd = res.fd := by
    split <;> rfl
  rw [responseCloses, geminiResponseClose, hfd, if_pos h]
  exact congrArg (res.fd.toNat :: ·) (responseCloses_none n (show (-1 : Int) < 0 by decide))

/-- What a request leaves open is what closing its response closes, once. -/
def KeepsAccount (dial : Dial) (url : CStr) (s : ClientState) : Prop :=
  Outcome (geminiClientRequest dial url) s
    (fun res s' => match res with
      | none => s'.fds = s.fds
      | some res => ∃ fd, s.fds.get fd = none ∧ s'.fds = s.fds.set fd (some ()) ∧
          res.ssl = some fd ∧ ∀ n, responseCloses (n + 1) res = [fd])
    fun _ _ => False

theorem geminiParseUrl_fault_iff (malloc : UrlMalloc) (s : CStr) :
    (∃ fault, geminiParseUrl malloc s = .error fault) ↔
      (malloc (urlLen s)).isSome ∧
        ∃ loc : Location, s.octets = loc.text ∧ loc.Overruns (urlLen s) := by
  unfold geminiParseUrl geminiNewUrl
  cases malloc (urlLen s) with
  | none => simp
  | some block =>
    rw [← parseUrlLoop_fault_iff s block]
    cases hr : geminiParseUrlLoop block 0 0 geminiDefaultPort s.octets with
    | error fault => simp [parseUrlInto_eq, hr, Except.map, bind, Except.bind]
    | ok r => simp [parseUrlInto_eq, hr, Except.map, bind, Except.bind]

theorem responseCloses_eq (h : responseCloses (n + 1) res = [fd]) : res.fd = fd := by
  obtain hneg | hfd := Int.lt_or_le res.fd 0
  · rw [responseCloses_none _ hneg] at h
    cases h
  · rw [responseCloses_once n hfd] at h
    cases h
    exact (Int.toNat_of_nonneg hfd).symm

theorem keepsAccount_accepted {dial : Dial} {url : CStr} {u : GeminiUrl (urlLen url)}
    (hu : geminiParseUrl dial.url url = .ok (some u)) (s : ClientState) :
    KeepsAccount dial url s ↔
      (dial.Connects → ∀ garbage, dial.malloc = some garbage → garbage = s.fds.unused) := by
  have hspec := geminiClientRequest_spec hu s
  constructor
  · intro hkeeps hconnects garbage hmalloc
    obtain ⟨res, s', hrun, _, hanswered⟩ := hspec.returns
    have hkept := hkeeps.of_ok hrun
    cases res with
    | none =>
      rw [hanswered.2 hconnects] at hmalloc
      cases hmalloc
    | some res =>
      obtain ⟨_, hmalloc', hssl, _, _⟩ := hanswered
      obtain ⟨fd, _, _, hssl', hcloses⟩ := hkept
      rw [hssl] at hssl'
      cases hssl'
      rw [hmalloc] at hmalloc'
      cases hmalloc'
      exact responseCloses_eq (hcloses 0)
  · intro howned
    apply hspec.imp
    intro res s' h
    obtain ⟨_, hanswered⟩ := h
    cases res with
    | none => exact hanswered.1
    | some res =>
      obtain ⟨hconnects, hmalloc, hssl, hfds, _⟩ := hanswered
      have hfd := howned hconnects res.fd hmalloc
      refine ⟨s.fds.unused, s.fds.get_unused, hfds, hssl, fun n => ?_⟩
      rw [responseCloses_once n (by omega), hfd, Int.toNat_natCast]

/-- Account is kept just if the block of a response happens to hold the number of its socket. -/
theorem keepsAccount_iff (dial : Dial) (url : CStr) (s : ClientState) :
    KeepsAccount dial url s ↔
      ((dial.url (urlLen url)).isSome → ∀ loc : Location, url.octets = loc.text →
        ¬ loc.Overruns (urlLen url)) ∧
      ((∃ u, geminiParseUrl dial.url url = .ok (some u)) → dial.Connects →
        ∀ garbage, dial.malloc = some garbage → garbage = s.fds.unused) := by
  have hfault := geminiParseUrl_fault_iff dial.url url
  cases hparse : geminiParseUrl dial.url url with
  | error fault =>
    obtain ⟨hmalloc, loc, hloc, hover⟩ := hfault.1 ⟨fault, hparse⟩
    constructor
    · intro hkeeps
      have hrun : geminiClientRequest dial url s = .error fault s := by
        rw [geminiClientRequest, hparse]
        rfl
      unfold KeepsAccount Outcome at hkeeps
      rw [hrun] at hkeeps
      exact hkeeps.elim
    · intro h
      exact absurd hover (h.1 hmalloc loc hloc)
  | ok parsed =>
    have hkept : (dial.url (urlLen url)).isSome → ∀ loc : Location, url.octets = loc.text →
        ¬ loc.Overruns (urlLen url) := by
      intro hmalloc loc hloc hover
      obtain ⟨fault, herror⟩ := hfault.2 ⟨hmalloc, loc, hloc, hover⟩
      rw [hparse] at herror
      cases herror
    rw [and_iff_right hkept]
    cases parsed with
    | none =>
      constructor
      · intro _ haccepted
        obtain ⟨u, hu⟩ := haccepted
        cases hu
      · intro _
        have hrun : geminiClientRequest dial url s = .ok none s := by
          rw [geminiClientRequest, hparse]
          rfl
        exact .of_run hrun rfl
    | some u =>
      rw [keepsAccount_accepted hparse s]
      exact ⟨fun h _ => h, fun h => h ⟨u, rfl⟩⟩

/-- A client with no descriptor open, whose response's block happens to hold the number 7. -/
theorem not_keepsAccount_garbage :
    ¬ KeepsAccount { smooth (fun len => some (blank len)) with malloc := some 7 } homeUrl
      ⟨.empty, [], []⟩ := by
  intro hkeeps
  obtain ⟨u, hu, _⟩ : ∃ u, geminiParseUrl (fun len => some (blank len)) homeUrl = .ok (some u) ∧
    u.Denotes home := geminiParseUrl_text (by decide) rfl rfl
  have hunused : (FdTable.empty (δ := Unit)).unused = 0 :=
    (Nat.find_eq_zero FdTable.empty.exists_unused).2 rfl
  have howned := (keepsAccount_accepted hu _).1 hkeeps
  have hseven : (7 : Int) = (FdTable.empty (δ := Unit)).unused :=
    howned ⟨⟨_, _, rfl, List.mem_cons_self, rfl, rfl⟩, rfl, rfl⟩ 7 rfl
  rw [hunused] at hseven
  exact absurd hseven (by decide)

end Geminon
