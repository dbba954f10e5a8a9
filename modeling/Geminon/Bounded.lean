import Geminon.Location

namespace Geminon
open Memory Decimal
set_option autoImplicit true

/-- A parse that keeps to a buffer and takes exactly the URLs that have room there. -/
def ParsesWithin (s : CStr) (url : GeminiUrl len) : Prop :=
  ∃ rc url', geminiParseUrlInto s (some url) = .ok (rc, some url') ∧ rc ≤ 0 ∧
    (rc = 0 ↔ ∃ loc : Location, s.octets = loc.text ∧
      loc.host.length + loc.path.length + 2 ≤ len)

theorem parseUrlInto_eq (s : CStr) (url : GeminiUrl len) : geminiParseUrlInto s (some url) =
    (geminiParseUrlLoop url 0 0 geminiDefaultPort s.octets).map (Prod.map id some) := rfl

/-- A parse leaves its buffer just for the URLs that overrun it. -/
theorem parseUrlLoop_fault_iff (s : CStr) (url : GeminiUrl len) :
    (∃ fault, geminiParseUrlLoop url 0 0 geminiDefaultPort s.octets = .error fault) ↔
      ∃ loc : Location, s.octets = loc.text ∧ loc.Overruns len := by
  constructor
  · intro hfault
    obtain ⟨fault, hr⟩ := hfault
    have hreached : Reached (geminiParseUrlLoop url 0 0 geminiDefaultPort s.octets) := by
      intro rc url' hok
      rw [hr] at hok
      cases hok
    obtain ⟨loc, hs, hend⟩ := reached_location hreached
    cases hend with
    | inl hfits =>
      obtain ⟨url', hok, _⟩ := parse_location url loc (hs ▸ s.noNul) hfits
      rw [← hs, hr] at hok
      cases hok
    | inr hover => exact ⟨loc, hs, hover⟩
  · intro hloc
    obtain ⟨loc, hs, hover⟩ := hloc
    rw [hs]
    exact parse_overrun url loc hover

/-- A buffer is kept to unless it ends right before a terminator, which then overruns it. -/
theorem parsesWithin_iff (s : CStr) (url : GeminiUrl len) :
    ParsesWithin s url ↔ ∀ loc : Location, s.octets = loc.text →
      loc.host.length + loc.path.length + 1 ≠ len ∧
        (loc.service = none → loc.host.length + 1 ≠ len) := by
  have hfault := parseUrlLoop_fault_iff s url
  constructor
  · intro hwithin loc hs
    obtain ⟨rc, url', hparse, _, _⟩ := hwithin
    have hkept : ¬ loc.Overruns len := by
      intro hover
      obtain ⟨fault, hr⟩ := hfault.2 ⟨loc, hs, hover⟩
      rw [parseUrlInto_eq, hr] at hparse
      cases hparse
    exact ⟨fun hend => hkept (.inl hend), fun hnone hend => hkept (.inr ⟨hnone, hend⟩)⟩
  · intro hkept
    cases hr : geminiParseUrlLoop url 0 0 geminiDefaultPort s.octets with
    | error fault =>
      obtain ⟨loc, hs, hover⟩ := hfault.1 ⟨fault, hr⟩
      cases hover with
      | inl hend => exact absurd hend (hkept loc hs).1
      | inr hend => exact absurd hend.2 ((hkept loc hs).2 hend.1)
    | ok r =>
      obtain ⟨rc, url'⟩ := r
      have hsettles := parseUrlLoop_settles url 0 0 geminiDefaultPort s.octets
      rw [hr] at hsettles
      refine ⟨rc, url', by rw [parseUrlInto_eq, hr]; rfl, hsettles, ?_, ?_⟩
      · intro hzero
        subst rc
        exact accepted_location hr
      · intro hloc
        obtain ⟨loc, hs, hfits⟩ := hloc
        obtain ⟨url'', hok, _⟩ := parse_location url loc (hs ▸ s.noNul) hfits
        rw [← hs, hr] at hok
        cases hok
        rfl

def doorstep : CStr := ⟨scheme ++ [104, slash], by decide⟩

/-- Two octets take the host and its terminator; the path's first octet goes behind them. -/
theorem not_parsesWithin_doorstep : ¬ ParsesWithin doorstep (blank 2) := by
  intro hwithin
  obtain ⟨rc, url', hparse, _⟩ := hwithin
  cases hparse

def GeminiUrl.Alike (url : GeminiUrl len) (url' : GeminiUrl len') : Prop :=
  ∃ host path, url.buf.HoldsAt url.host host ∧ url'.buf.HoldsAt url'.host host ∧
    url.buf.HoldsAt url.path path ∧ url'.buf.HoldsAt url'.path path ∧ url.port = url'.port

theorem alike_of_denotes {url : GeminiUrl len} {url' : GeminiUrl len'} {loc : Location}
    (h : url.Denotes loc) (h' : url'.Denotes loc) : url.Alike url' :=
  ⟨loc.host, loc.path, h.host, h'.host, h.path, h'.path,
    UInt16.toNat_inj.1 (h.port.trans h'.port.symm)⟩

theorem parseUrlInto_unhindered (s : CStr) (url : GeminiUrl len) (hlen : s.length ≤ len) :
    Unhindered (geminiParseUrlLoop url 0 0 geminiDefaultPort s.octets) := by
  have hs : s.octets.length = s.length := rfl
  by_cases hnil : s.octets = []
  · rw [hnil]
    exact unhindered_end (by decide)
  · have hpos := List.length_pos_of_ne_nil hnil
    exact unhindered_scheme (Nat.zero_le 9) (by omega) (by omega)

/-- A struct as long as the string, whatever it held before, is filled as a new one would be. -/
theorem geminiParseUrlInto_alike (block : (len : Nat) → GeminiUrl len) (s : CStr)
    (hs : s.length < 2 ^ 32 - 1) (url : GeminiUrl len) (hlen : s.length ≤ len) :
    ∃ rc url', geminiParseUrlInto s (some url) = .ok (rc, some url') ∧ rc ≠ -92 ∧
      (rc ≠ 0 → geminiParseUrl (fun len => some (block len)) s = .ok none) ∧
      (rc = 0 → ∃ made, geminiParseUrl (fun len => some (block len)) s = .ok (some made) ∧
        url'.Alike made) := by
  obtain ⟨rc, url', hr, hfull⟩ := parseUrlInto_unhindered s url hlen
  refine ⟨rc, url', by rw [parseUrlInto_eq, hr]; rfl, hfull, ?_, ?_⟩
  · intro hrc
    cases hmade : geminiParseUrl (fun len => some (block len)) s with
    | error fault => exact absurd hmade (geminiParseUrl_safe _ s hs fault)
    | ok made =>
      cases made with
      | none => rfl
      | some made =>
        obtain ⟨loc, hloc⟩ := location_of_geminiParseUrl hmade
        have hroom := loc.room
        rw [← hloc, show s.octets.length = s.length from rfl] at hroom
        obtain ⟨url'', hok, _⟩ := parse_location url loc (hloc ▸ s.noNul) (by omega)
        rw [← hloc, hr] at hok
        cases hok
        exact absurd rfl hrc
  · intro hrc
    subst rc
    obtain ⟨loc, hloc, hfits⟩ := accepted_location hr
    obtain ⟨url'', hok, hdenotes⟩ := parse_location url loc (hloc ▸ s.noNul) hfits
    rw [← hloc, hr] at hok
    cases hok
    obtain ⟨made, hmade, hmade'⟩ : ∃ made,
        geminiParseUrl (fun len => some (block len)) s = .ok (some made) ∧ made.Denotes loc :=
      geminiParseUrl_text hs rfl hloc
    exact ⟨made, hmade, alike_of_denotes hdenotes hmade'⟩

/-- A struct without a spare octet, with the URL of port 7 in it. -/
theorem geminiParseUrlInto_alike_home :
    ∃ rc url', geminiParseUrlInto homeUrl (some (blank 14)) = .ok (rc, some url') ∧ rc ≠ -92 ∧
      (rc ≠ 0 → geminiParseUrl (fun len => some (blank len)) homeUrl = .ok none) ∧
      (rc = 0 → ∃ made, geminiParseUrl (fun len => some (blank len)) homeUrl = .ok (some made) ∧
        url'.Alike made) :=
  geminiParseUrlInto_alike blank homeUrl (by decide) (blank 14) (by decide)

end Geminon
