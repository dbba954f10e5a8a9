import Geminon.Client

namespace Geminon
open Memory Decimal Process
set_option autoImplicit true

/-- The port of a URL: what its digits denote, or the default one when it has no digits. -/
def Location.statedPort (loc : Location) : Nat :=
  match loc.service with
  | none => geminiDefaultPort
  | some [] => geminiDefaultPort
  | some (d :: ds) => value (d :: ds)

/-- The name that was looked up is the URL's host, and the service the numeral of its port. -/
def LooksUpPort (url : CStr) (loc : Location) : Prop :=
  ∀ (dial : Dial) u s, geminiParseUrl dial.url url = .ok (some u) →
    Outcome (geminiClientRequest dial url) s
      (fun _ s' => ∃ service, s'.lookups = s.lookups ++ [(loc.host, service)] ∧
        IsNumeral service loc.statedPort)
      fun _ _ => False

theorem geminiClientRequest_lookup {dial : Dial} {url : CStr} {u : GeminiUrl (urlLen url)}
    {loc : Location} (hu : geminiParseUrl dial.url url = .ok (some u))
    (hloc : url.octets = loc.text) (s : ClientState) :
    Outcome (geminiClientRequest dial url) s
      (fun _ s' => s'.lookups = s.lookups ++ [(loc.host, digitsOf loc.port)])
      fun _ _ => False := by
  have hdenotes := denotes_of_geminiParseUrl hu hloc
  apply (geminiClientRequest_spec hu s).imp
  intro res s' h
  rw [h.1, hdenotes.host.strAt_eq, hdenotes.port]

theorem Location.port_eq_stated (loc : Location) (h : ∀ ds ∈ loc.service, value ds ≠ 0) :
    0 < loc.port ∧ loc.port = loc.statedPort := by
  unfold Location.port Location.statedPort
  cases hservice : loc.service with
  | none => exact ⟨by decide, rfl⟩
  | some ds =>
    have hne := h ds hservice
    cases ds with
    | nil => exact absurd rfl hne
    | cons d ds => exact ⟨Nat.pos_of_ne_zero hne, rfl⟩

theorem not_looksUpPort (haccepted : ∃ malloc u, geminiParseUrl malloc url = .ok (some u))
    (hloc : url.octets = loc.text) (hport : loc.port = 0) : ¬ LooksUpPort url loc := by
  intro hlooks
  obtain ⟨malloc, u, hu⟩ := haccepted
  have hdialled : geminiParseUrl (smooth malloc).url url = .ok (some u) := hu
  have s : ClientState := ⟨.empty, [], []⟩
  obtain ⟨res, s', hrun, hlookup⟩ := (geminiClientRequest_lookup hdialled hloc s).returns
  obtain ⟨service, hservice, hnumeral⟩ := (hlooks (smooth malloc) u s hu).of_ok hrun
  rw [hlookup, hport, digitsOf_zero] at hservice
  have hpair := List.append_cancel_left hservice
  cases hpair
  exact hnumeral.nonempty rfl

/-- The service is right unless a zero, or nothing, stands behind a colon in place of a port. -/
theorem looksUpPort_iff (haccepted : ∃ malloc u, geminiParseUrl malloc url = .ok (some u))
    (hloc : url.octets = loc.text) :
    LooksUpPort url loc ↔ ∀ ds ∈ loc.service, value ds ≠ 0 := by
  constructor
  · intro hlooks ds hds hzero
    have hport : loc.port = 0 := by
      rw [Location.port, Option.mem_def.1 hds]
      exact hzero
    exact not_looksUpPort haccepted hloc hport hlooks
  · intro h dial u s hu
    obtain ⟨hpos, hstated⟩ := loc.port_eq_stated h
    apply (geminiClientRequest_lookup hu hloc s).imp
    intro _ s' hlookup
    exact ⟨_, hlookup, hstated ▸ digitsOf_isNumeral hpos⟩

theorem looksUpPort_iff_home :
    LooksUpPort homeUrl home ↔ ∀ ds ∈ home.service, value ds ≠ 0 := by
  obtain ⟨u, hu, _⟩ : ∃ u, geminiParseUrl (fun len => some (blank len)) homeUrl = .ok (some u) ∧
    u.Denotes home := geminiParseUrl_text (by decide) rfl rfl
  exact looksUpPort_iff ⟨_, u, hu⟩ rfl

def unnumbered : Location where
  host := home.host
  service := some []
  path := home.path
  host_ne := home.host_ne
  host_octets := home.host_octets
  digits := by
    intro ds hsome
    cases hsome
    exact fun c hc => absurd hc List.not_mem_nil
  port_le := by
    intro ds hsome
    cases hsome
    decide
  rooted := home.rooted

def unnumberedUrl : CStr := ⟨unnumbered.text, by decide⟩

/-- For `"gemini://h:/"` the empty service is looked up. -/
theorem not_looksUpPort_unnumbered :
    (∃ malloc u, geminiParseUrl malloc unnumberedUrl = .ok (some u)) ∧
      ¬ LooksUpPort unnumberedUrl unnumbered := by
  obtain ⟨u, hu, _⟩ : ∃ u, geminiParseUrl (fun len => some (blank len)) unnumberedUrl =
    .ok (some u) ∧ u.Denotes unnumbered := geminiParseUrl_text (by decide) rfl rfl
  exact ⟨⟨_, u, hu⟩, not_looksUpPort ⟨_, u, hu⟩ rfl rfl⟩

end Geminon
