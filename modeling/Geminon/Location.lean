import Geminon.Url

namespace Geminon
open Memory Decimal
set_option autoImplicit true

/-- What a Gemini URL names: a host, the digits behind a colon if there is one, and a path. -/
structure Location where
  host : List UInt8
  service : Option (List UInt8)
  path : List UInt8
  host_ne : host ≠ []
  host_octets : ∀ c ∈ host, IsHostOctet c
  digits : ∀ ds ∈ service, ∀ c ∈ ds, IsDigit c
  port_le : ∀ ds ∈ service, value ds ≤ 65535
  rooted : path.head? = some slash

def serviceText : Option (List UInt8) → List UInt8
  | none => []
  | some ds => colon :: ds

def Location.text (loc : Location) : List UInt8 :=
  scheme ++ (loc.host ++ (serviceText loc.service ++ loc.path))

def Location.port (loc : Location) : Nat :=
  match loc.service with
  | none => geminiDefaultPort
  | some ds => value ds

/-- A parsed URL stands for a location when its three parts do. -/
structure GeminiUrl.Denotes (url : GeminiUrl len) (loc : Location) : Prop where
  host : url.buf.HoldsAt url.host loc.host
  path : url.buf.HoldsAt url.path loc.path
  port : url.port.toNat = loc.port

section Accepting
variable {len fill : Nat} {written : List UInt8}

theorem parse_path (url : GeminiUrl len) (port : Nat) (rest : List UInt8)
    (hb : url.buf.Starts written)
    (hroom : written.length + rest.length < len) :
    ∃ buf, geminiParseUrlLoop url 12 written.length port rest =
        .ok (0, { url with port := UInt16.ofNat port, buf }) ∧
      buf.Starts (written ++ (rest ++ [0])) := by
  induction rest generalizing url written with
  | nil =>
    obtain ⟨buf, hstore, hbuf⟩ := hb.store (by simpa using hroom) 0
    refine ⟨buf, ?_, by simpa using hbuf⟩
    simp only [geminiParseUrlLoop, ↓reduceIte, hstore, bind, Except.bind]
  | cons c rest ih =>
    rw [List.length_cons] at hroom
    obtain ⟨buf, hstore, hbuf⟩ := hb.store (by omega) c
    obtain ⟨buf', hloop, hbuf'⟩ := ih { url with buf } hbuf (by simp; omega)
    refine ⟨buf', ?_, by simpa using hbuf'⟩
    rw [List.length_append, List.length_singleton] at hloop
    rw [parseUrl_path (by omega), hstore]
    exact hloop

theorem parse_digits (url : GeminiUrl len) (seen digits tail : List UInt8) (hroom : fill < len)
    (hd : ∀ c ∈ digits, IsDigit c) (hport : value (seen ++ digits) ≤ 65535) :
    geminiParseUrlLoop url 11 fill (value seen) (digits ++ tail) =
      geminiParseUrlLoop url 11 fill (value (seen ++ digits)) tail := by
  induction digits generalizing seen with
  | nil => rw [List.nil_append, List.append_nil]
  | cons c digits ih =>
    have hstep : value seen * 10 + digit c = value (seen ++ [c]) := (value_concat seen c).symm
    have hrest : value ((seen ++ [c]) ++ digits) ≤ 65535 := by simpa using hport
    have hloop := ih (seen ++ [c]) (fun d hm => hd d (List.mem_cons_of_mem _ hm)) hrest
    have hle := (value_le_append (seen ++ [c]) digits).trans hrest
    rw [List.cons_append, parseUrl_digit hroom (hd c List.mem_cons_self), hstep,
      if_neg (by omega), hloop, List.append_assoc, List.singleton_append]

theorem parse_host (url : GeminiUrl len) (port : Nat) (host tail : List UInt8)
    (hb : url.buf.Starts written)
    (hroom : written.length + host.length ≤ len) (hh : ∀ c ∈ host, IsHostOctet c) :
    ∃ buf, geminiParseUrlLoop url 10 written.length port (host ++ tail) =
        geminiParseUrlLoop { url with buf } 10 (written ++ host).length port tail ∧
      buf.Starts (written ++ host) := by
  induction host generalizing url written with
  | nil => exact ⟨url.buf, by simp, by simpa using hb⟩
  | cons c host ih =>
    rw [List.length_cons] at hroom
    obtain ⟨buf, hstore, hbuf⟩ := hb.store (by omega) c
    obtain ⟨buf', hloop, hbuf'⟩ := ih { url with buf } hbuf (by simp; omega)
      fun d hm => hh d (List.mem_cons_of_mem _ hm)
    refine ⟨buf', ?_, by simpa using hbuf'⟩
    rw [List.length_append, List.length_singleton, List.append_assoc, List.singleton_append]
      at hloop
    rw [List.cons_append, parseUrl_host (by omega) (hh c List.mem_cons_self), hstore]
    exact hloop

theorem denotes_of_starts (url : GeminiUrl len) (loc : Location) (hnul : 0 ∉ loc.text)
    (hb : url.buf.Starts (loc.host ++ 0 :: (loc.path ++ [0]))) (hh : url.host = 0)
    (hp : url.path = loc.host.length + 1) (hport : url.port = UInt16.ofNat loc.port) :
    url.Denotes loc := by
  simp only [Location.text, List.mem_append, not_or] at hnul
  refine ⟨?_, ?_, ?_⟩
  · rw [hh]
    exact Buf.Starts.holdsAt [] hb hnul.2.1
  · have hlen : (loc.host ++ [0]).length = loc.host.length + 1 := by simp
    rw [hp, ← hlen]
    exact Buf.Starts.holdsAt _ (by simpa using hb) hnul.2.2.2
  · have hle : loc.port ≤ 65535 := by
      unfold Location.port
      cases hs : loc.service with
      | none => decide
      | some ds => exact loc.port_le ds hs
    rw [hport, UInt16.toNat_ofNat', Nat.mod_eq_of_lt (by omega)]

theorem parse_scheme (url : GeminiUrl len) (port : Nat) (tail : List UInt8) (hs : state ≤ 9)
    (hlen : 0 < len) :
    geminiParseUrlLoop url state 0 port (scheme.drop state ++ tail) =
      geminiParseUrlLoop url 9 0 port tail := by
  induction h : 9 - state generalizing state with
  | zero =>
    obtain rfl : state = 9 := by omega
    rfl
  | succ k ih =>
    have hlt : state < scheme.length := by rw [show scheme.length = 9 from rfl]; omega
    rw [List.drop_eq_getElem_cons hlt, List.cons_append,
      parseUrl_scheme (by omega) hlen (List.getElem?_eq_getElem hlt)]
    exact ih (by omega) (by omega)

theorem Location.path_eq (loc : Location) : ∃ tail, loc.path = slash :: tail := by
  have hr := loc.rooted
  cases hp : loc.path with
  | nil => rw [hp] at hr; cases hr
  | cons d tail => rw [hp] at hr; cases hr; exact ⟨tail, rfl⟩

theorem parse_authority (url : GeminiUrl len) (loc : Location) (hroom : loc.host.length ≤ len) :
    ∃ buf, buf.Starts loc.host ∧ geminiParseUrlLoop url 0 0 geminiDefaultPort loc.text =
      geminiParseUrlLoop { url with host := 0, buf } 10 loc.host.length geminiDefaultPort
        (serviceText loc.service ++ loc.path) := by
  obtain ⟨c, host, hhost⟩ := List.exists_cons_of_ne_nil loc.host_ne
  have hoct := loc.host_octets
  rw [hhost] at hoct
  have hlen : loc.host.length = host.length + 1 := by rw [hhost]; rfl
  obtain ⟨buf₁, hstore₁, hbuf₁⟩ := url.buf.starts_nil.store (by simp; omega) c
  obtain ⟨buf₂, hloop₂, hbuf₂⟩ := parse_host { url with host := 0, buf := buf₁ }
    geminiDefaultPort host (serviceText loc.service ++ loc.path)
    hbuf₁ (by simp; omega) fun d hm => hoct d (List.mem_cons_of_mem _ hm)
  rw [List.nil_append, List.singleton_append, ← hhost] at hloop₂ hbuf₂
  refine ⟨buf₂, hbuf₂, ?_⟩
  have hscheme := parse_scheme url geminiDefaultPort
    (loc.host ++ (serviceText loc.service ++ loc.path)) (Nat.zero_le 9) (by omega)
  rw [List.drop_zero] at hscheme
  rw [Location.text, hscheme, hhost, List.cons_append, parseUrl_hostStart (by omega)
    (hoct c List.mem_cons_self), ← hhost, ← hloop₂]
  rw [show url.buf.store 0 c = .ok buf₁ from hstore₁]
  rfl

/-- A buffer with room for host, path and their terminators takes every URL of the grammar. -/
theorem parse_location (url : GeminiUrl len) (loc : Location) (hnul : 0 ∉ loc.text)
    (hroom : loc.host.length + loc.path.length + 2 ≤ len) :
    ∃ url', geminiParseUrlLoop url 0 0 geminiDefaultPort loc.text = .ok (0, url') ∧
      url'.Denotes loc := by
  obtain ⟨tail, htail⟩ := loc.path_eq
  have hlen : loc.path.length = tail.length + 1 := by rw [htail]; rfl
  obtain ⟨buf₂, hbuf₂, hstart⟩ := parse_authority url loc (by omega)
  obtain ⟨buf₃, hstore₃, hbuf₃⟩ := hbuf₂.store (by omega) 0
  obtain ⟨buf₄, hstore₄, hbuf₄⟩ := hbuf₃.store (by simp; omega) slash
  obtain ⟨buf₅, hloop₅, hbuf₅⟩ := parse_path
    { url with host := 0, path := loc.host.length + 1, buf := buf₄ } loc.port tail hbuf₄
    (by simp; omega)
  simp only [List.length_append, List.length_singleton] at hstore₄ hloop₅
  refine ⟨_, ?_, denotes_of_starts { url with
    host := 0, path := loc.host.length + 1, port := UInt16.ofNat loc.port, buf := buf₅ } loc hnul
    (by simpa [htail] using hbuf₅) rfl rfl rfl⟩
  rw [hstart]
  cases hs : loc.service with
  | none =>
    have hport : loc.port = geminiDefaultPort := by rw [Location.port, hs]
    rw [serviceText, List.nil_append, htail, parseUrl_hostEnd (by omega),
      hstore₃, Except.bind, hstore₄, ← hport]
    exact hloop₅
  | some ds =>
    have hport : loc.port = value ds := by rw [Location.port, hs]
    have hdigits := parse_digits { url with host := 0, buf := buf₃ } [] ds (slash :: tail)
      (by omega : loc.host.length + 1 < len) (loc.digits ds hs) (loc.port_le ds hs)
    rw [value_nil, List.nil_append, ← hport] at hdigits
    rw [serviceText, List.cons_append, htail, parseUrl_service (by omega), hstore₃, Except.bind,
      hdigits, parseUrl_serviceEnd (by omega), hstore₄]
    exact hloop₅

theorem overrun_path (url : GeminiUrl len) (port : Nat) (h : fill + rest.length = len) :
    ∃ fault, geminiParseUrlLoop url 12 fill port rest = .error fault := by
  induction rest generalizing url fill with
  | nil =>
    rw [List.length_nil, Nat.add_zero] at h
    rw [geminiParseUrlLoop, if_pos rfl, Buf.store_out (Nat.le_of_eq h.symm)]
    exact ⟨_, rfl⟩
  | cons c rest ih =>
    rw [List.length_cons] at h
    obtain ⟨buf, hstore⟩ := url.buf.store_lt (by omega : fill < len) c
    rw [parseUrl_path (by omega), hstore]
    exact ih { url with buf } (by omega)

/-- The buffer ends right before a terminator: the one of the path, or of the host before it. -/
def Location.Overruns (loc : Location) (len : Nat) : Prop :=
  loc.host.length + loc.path.length + 1 = len ∨
    loc.service = none ∧ loc.host.length + 1 = len

theorem parse_overrun (url : GeminiUrl len) (loc : Location) (h : loc.Overruns len) :
    ∃ fault, geminiParseUrlLoop url 0 0 geminiDefaultPort loc.text = .error fault := by
  obtain ⟨tail, htail⟩ := loc.path_eq
  have hlen : loc.path.length = tail.length + 1 := by rw [htail]; rfl
  have hroom : loc.host.length < len := by
    obtain h | ⟨_, h⟩ := h <;> omega
  obtain ⟨buf₂, _, hstart⟩ := parse_authority url loc (by omega)
  obtain ⟨buf₃, hstore₃⟩ := buf₂.store_lt hroom 0
  rw [hstart]
  cases hs : loc.service with
  | none =>
    rw [serviceText, List.nil_append, htail, parseUrl_hostEnd hroom, hstore₃, Except.bind]
    rcases Nat.lt_or_ge (loc.host.length + 1) len with hlt | hge
    · have hend : loc.host.length + loc.path.length + 1 = len := by
        obtain h | ⟨_, h⟩ := h
        · exact h
        · omega
      obtain ⟨buf₄, hstore₄⟩ := buf₃.store_lt hlt slash
      rw [hstore₄]
      exact overrun_path _ _ (by omega)
    · rw [Buf.store_out hge]
      exact ⟨_, rfl⟩
  | some ds =>
    have hend : loc.host.length + loc.path.length + 1 = len := by
      obtain h | ⟨hnone, _⟩ := h
      · exact h
      · rw [hs] at hnone
        cases hnone
    obtain ⟨buf₄, hstore₄⟩ := buf₃.store_lt (by omega : loc.host.length + 1 < len) slash
    have hdigits := parse_digits { url with host := 0, buf := buf₃ } [] ds (slash :: tail)
      (by omega : loc.host.length + 1 < len) (loc.digits ds hs) (loc.port_le ds hs)
    rw [value_nil, List.nil_append] at hdigits
    rw [serviceText, List.cons_append, htail, parseUrl_service hroom, hstore₃, Except.bind,
      hdigits, parseUrl_serviceEnd (by omega), hstore₄]
    exact overrun_path _ _ (by omega)

end Accepting

section Reached
variable {len fill port state : Nat} {url url' : GeminiUrl len} {src rest : List UInt8}

/-- A run that is not turned down: it is accepted, or it leaves its buffer. -/
def Reached (r : Except Fault (Int × GeminiUrl len)) : Prop :=
  ∀ rc url, r = .ok (rc, url) → rc = 0

theorem not_reached (h : rc ≠ 0) : ¬ Reached (.ok (rc, url)) := fun hr => h (hr rc url rfl)

theorem room_of_reached (h : Reached (geminiParseUrlLoop url state fill port (c :: rest))) :
    fill < len := by
  apply Nat.lt_of_not_le
  intro hfull
  rw [parseUrl_full hfull] at h
  exact not_reached (by decide) h

theorem state_of_reached (h : Reached (geminiParseUrlLoop url state fill port (c :: rest))) :
    urlStates state c ≠ none := by
  intro hc
  rw [parseUrl_bad (room_of_reached h) hc] at h
  exact not_reached (by decide) h

theorem store_of_reached {f : Buf len → Except Fault (Int × GeminiUrl len)} {buf : Buf len}
    (hroom : fill < len) (h : Reached ((buf.store fill c).bind f)) :
    ∃ buf', Reached (f buf') := by
  obtain ⟨buf', hstore⟩ := buf.store_lt hroom c
  rw [hstore] at h
  exact ⟨buf', h⟩

theorem end_of_reached (h : Reached (geminiParseUrlLoop url state fill port [])) : state = 12 := by
  apply Decidable.byContradiction
  intro hstate
  rw [geminiParseUrlLoop, if_neg hstate] at h
  exact not_reached (by omega) h

theorem reached_scheme (hs : state ≤ 9)
    (h : Reached (geminiParseUrlLoop url state fill port src)) :
    ∃ rest, src = scheme.drop state ++ rest ∧
      Reached (geminiParseUrlLoop url 9 fill port rest) := by
  induction src generalizing state with
  | nil =>
    have hstate := end_of_reached h
    omega
  | cons c src ih =>
    rcases Nat.lt_or_eq_of_le hs with hlt | rfl
    · have hstate := state_of_reached h
      rw [urlStates_scheme hlt, ne_eq, ite_eq_right_iff, not_forall] at hstate
      obtain ⟨hc, _⟩ := hstate
      rw [parseUrl_scheme hlt (room_of_reached h) hc] at h
      obtain ⟨rest, hsrc, hrest⟩ := ih hlt h
      obtain ⟨hlen, hget⟩ := List.getElem?_eq_some_iff.1 hc
      refine ⟨rest, ?_, hrest⟩
      rw [List.drop_eq_getElem_cons hlen, hget, hsrc]
      rfl
    · exact ⟨c :: src, rfl, h⟩

theorem reached_path (hfill : fill ≤ len)
    (h : Reached (geminiParseUrlLoop url 12 fill port src)) : fill + src.length ≤ len := by
  induction src generalizing url fill with
  | nil => exact hfill
  | cons c src ih =>
    have hroom := room_of_reached h
    rw [parseUrl_path hroom] at h
    obtain ⟨buf, h⟩ := store_of_reached hroom h
    have hrest := ih hroom h
    rw [List.length_cons]
    omega

theorem reached_digits (seen : List UInt8) (hport : value seen ≤ 65535)
    (h : Reached (geminiParseUrlLoop url 11 fill (value seen) src)) :
    ∃ ds tail, src = ds ++ slash :: tail ∧ (∀ c ∈ ds, IsDigit c) ∧
      value (seen ++ ds) ≤ 65535 ∧ fill + tail.length + 1 ≤ len := by
  induction src generalizing seen with
  | nil => cases end_of_reached h
  | cons c src ih =>
    have hroom := room_of_reached h
    by_cases hc : IsDigit c
    · rw [parseUrl_digit hroom hc, ← value_concat] at h
      split at h
      · exact absurd h (not_reached (by decide))
      · rename_i hle
        obtain ⟨ds, tail, rfl, hds, hvalue, htail⟩ := ih (seen ++ [c]) (Nat.le_of_not_lt hle) h
        refine ⟨c :: ds, tail, rfl, ?_, by simpa using hvalue, htail⟩
        intro d hd
        rcases List.mem_cons.1 hd with rfl | hd
        · exact hc
        · exact hds d hd
    · have hstate := state_of_reached h
      rw [urlStates, if_neg hc, ne_eq, ite_eq_right_iff, not_forall] at hstate
      obtain ⟨rfl, _⟩ := hstate
      rw [parseUrl_serviceEnd hroom] at h
      obtain ⟨buf, h⟩ := store_of_reached hroom h
      have htail := reached_path hroom h
      exact ⟨[], src, rfl, by simp, by simpa using hport, by omega⟩

theorem reached_host (h : Reached (geminiParseUrlLoop url 10 fill port src)) :
    ∃ host service tail, src = host ++ (serviceText service ++ slash :: tail) ∧
      (∀ c ∈ host, IsHostOctet c) ∧ (∀ ds ∈ service, ∀ c ∈ ds, IsDigit c) ∧
      (∀ ds ∈ service, value ds ≤ 65535) ∧ (fill + host.length + tail.length + 2 ≤ len ∨
        service = none ∧ fill + host.length + 1 = len) := by
  induction src generalizing url fill with
  | nil => cases end_of_reached h
  | cons c src ih =>
    have hroom := room_of_reached h
    by_cases hc : IsHostOctet c
    · rw [parseUrl_host hroom hc] at h
      obtain ⟨buf, h⟩ := store_of_reached hroom h
      obtain ⟨host, service, tail, rfl, hhost, hdigits, hport, hend⟩ := ih h
      refine ⟨c :: host, service, tail, rfl, ?_, hdigits, hport, ?_⟩
      · intro d hd
        rcases List.mem_cons.1 hd with rfl | hd
        · exact hc
        · exact hhost d hd
      · rw [List.length_cons]
        cases hend with
        | inl hroom => exact .inl (by omega)
        | inr hover => exact .inr ⟨hover.1, by omega⟩
    by_cases hslash : c = slash
    · subst c
      rw [parseUrl_hostEnd hroom] at h
      obtain ⟨buf, h⟩ := store_of_reached hroom h
      refine ⟨[], none, src, rfl, by simp, by simp, by simp, ?_⟩
      rw [List.length_nil]
      rcases Nat.lt_or_ge (fill + 1) len with hlt | hge
      · obtain ⟨buf', h⟩ := store_of_reached hlt h
        have htail := reached_path hlt h
        omega
      · exact .inr ⟨rfl, by omega⟩
    · have hstate := state_of_reached h
      rw [urlStates, if_neg hc, if_neg hslash, ne_eq, ite_eq_right_iff, not_forall] at hstate
      obtain ⟨rfl, _⟩ := hstate
      rw [parseUrl_service hroom] at h
      obtain ⟨buf, h⟩ := store_of_reached hroom h
      obtain ⟨ds, tail, rfl, hds, hvalue, htail⟩ := reached_digits [] (by simp) h
      refine ⟨[], some ds, tail, rfl, by simp, ?_, ?_, by rw [List.length_nil]; omega⟩
      · intro _ hsome
        cases hsome
        exact hds
      · intro _ hsome
        cases hsome
        exact hvalue

/-- A string that is not turned down is a URL, and the buffer ends behind it or overruns. -/
theorem reached_location (h : Reached (geminiParseUrlLoop url 0 0 port src)) :
    ∃ loc : Location, src = loc.text ∧
      (loc.host.length + loc.path.length + 2 ≤ len ∨ loc.Overruns len) := by
  obtain ⟨rest, hsrc, hrest⟩ := reached_scheme (Nat.zero_le 9) h
  cases rest with
  | nil => cases end_of_reached hrest
  | cons c rest =>
    have hroom := room_of_reached hrest
    have hstate := state_of_reached hrest
    rw [urlStates, ne_eq, ite_eq_right_iff, not_forall] at hstate
    obtain ⟨hc, _⟩ := hstate
    rw [parseUrl_hostStart hroom hc] at hrest
    obtain ⟨buf, hrest⟩ := store_of_reached hroom hrest
    obtain ⟨host, service, tail, rfl, hhost, hdigits, hport, hend⟩ := reached_host hrest
    refine ⟨⟨c :: host, service, slash :: tail, by simp, ?_, hdigits, hport, rfl⟩, hsrc, ?_⟩
    · intro d hd
      rcases List.mem_cons.1 hd with rfl | hd
      · exact hc
      · exact hhost d hd
    · simp only [Location.Overruns, List.length_cons]
      obtain hend | ⟨hnone, hend⟩ := hend
      · rcases Nat.lt_or_ge (host.length + tail.length + 3) len with hlt | hge
        · exact .inl (by omega)
        · exact .inr (.inl (by omega))
      · exact .inr (.inr ⟨hnone, by omega⟩)

theorem accepted_location (h : geminiParseUrlLoop url 0 0 geminiDefaultPort src = .ok (0, url')) :
    ∃ loc : Location, src = loc.text ∧ loc.host.length + loc.path.length + 2 ≤ len := by
  have hreached : Reached (geminiParseUrlLoop url 0 0 geminiDefaultPort src) := by
    intro rc url'' hr
    rw [h] at hr
    cases hr
    rfl
  obtain ⟨loc, hsrc, hend⟩ := reached_location hreached
  refine ⟨loc, hsrc, ?_⟩
  cases hend with
  | inl hroom => exact hroom
  | inr hover =>
    obtain ⟨fault, hfault⟩ := parse_overrun url loc hover
    rw [← hsrc, h] at hfault
    cases hfault

/-- A run that neither leaves its buffer nor finds it full. -/
def Unhindered (r : Except Fault (Int × GeminiUrl len)) : Prop :=
  ∃ rc url, r = .ok (rc, url) ∧ rc ≠ -92

theorem unhindered_store {f : Buf len → Except Fault (Int × GeminiUrl len)} (buf : Buf len)
    (c : UInt8) (h : fill < len) (hf : ∀ buf', Unhindered (f buf')) :
    Unhindered ((buf.store fill c).bind f) := by
  obtain ⟨buf', hstore⟩ := buf.store_lt h c
  rw [hstore]
  exact hf buf'

theorem unhindered_bad (h : fill < len) (hc : urlStates state c = none) :
    Unhindered (geminiParseUrlLoop url state fill port (c :: src)) :=
  ⟨-93, url, parseUrl_bad h hc, by decide⟩

theorem unhindered_end (h : state ≠ 12) :
    Unhindered (geminiParseUrlLoop url state fill port []) := by
  rw [geminiParseUrlLoop, if_neg h]
  exact ⟨_, _, rfl, by omega⟩

theorem unhindered_path (hroom : fill + src.length < len) :
    Unhindered (geminiParseUrlLoop url 12 fill port src) := by
  induction src generalizing url fill with
  | nil => exact unhindered_store url.buf 0 hroom fun _ => ⟨_, _, rfl, by decide⟩
  | cons c src ih =>
    rw [List.length_cons] at hroom
    rw [parseUrl_path (by omega)]
    exact unhindered_store url.buf c (by omega) fun _ => ih (by omega)

theorem unhindered_digits (hroom : fill + src.length < len) :
    Unhindered (geminiParseUrlLoop url 11 fill port src) := by
  induction src generalizing port with
  | nil => exact unhindered_end (by decide)
  | cons c src ih =>
    rw [List.length_cons] at hroom
    by_cases hc : IsDigit c
    · rw [parseUrl_digit (by omega) hc]
      split
      · exact ⟨_, _, rfl, by decide⟩
      · exact ih (by omega)
    by_cases hslash : c = slash
    · subst c
      rw [parseUrl_serviceEnd (by omega)]
      exact unhindered_store url.buf slash (by omega) fun _ => unhindered_path (by omega)
    · exact unhindered_bad (by omega) (by rw [urlStates, if_neg hc, if_neg hslash])

theorem unhindered_host (hroom : fill + src.length + 1 < len) :
    Unhindered (geminiParseUrlLoop url 10 fill port src) := by
  induction src generalizing url fill with
  | nil => exact unhindered_end (by decide)
  | cons c src ih =>
    rw [List.length_cons] at hroom
    by_cases hc : IsHostOctet c
    · rw [parseUrl_host (by omega) hc]
      exact unhindered_store url.buf c (by omega) fun _ => ih (by omega)
    by_cases hslash : c = slash
    · subst c
      rw [parseUrl_hostEnd (by omega)]
      apply unhindered_store url.buf 0 (by omega)
      intro buf
      exact unhindered_store buf slash (by omega) fun _ => unhindered_path (by omega)
    by_cases hcolon : c = colon
    · subst c
      rw [parseUrl_service (by omega)]
      exact unhindered_store url.buf 0 (by omega) fun _ => unhindered_digits (by omega)
    · exact unhindered_bad (by omega)
        (by rw [urlStates, if_neg hc, if_neg hslash, if_neg hcolon])

theorem unhindered_scheme (hs : state ≤ 9) (hfill : fill < len)
    (hroom : fill + src.length + 1 < len + (9 - state)) :
    Unhindered (geminiParseUrlLoop url state fill port src) := by
  induction src generalizing state with
  | nil => exact unhindered_end (by omega)
  | cons c src ih =>
    rw [List.length_cons] at hroom
    cases hc : urlStates state c with
    | none => exact unhindered_bad hfill hc
    | some next =>
      have hne : urlStates state c ≠ none := by simp [hc]
      rcases Nat.lt_or_eq_of_le hs with hlt | rfl
      · rw [urlStates_scheme hlt, ne_eq, ite_eq_right_iff, not_forall] at hne
        obtain ⟨hget, _⟩ := hne
        rw [parseUrl_scheme hlt (by omega) hget]
        exact ih hlt (by omega)
      · rw [urlStates, ne_eq, ite_eq_right_iff, not_forall] at hne
        obtain ⟨hhost, _⟩ := hne
        rw [parseUrl_hostStart (by omega) hhost]
        exact unhindered_store url.buf c (by omega) fun _ => unhindered_host (by omega)

end Reached

theorem urlLen_eq (hlen : s.length < 2 ^ 32 - 1) : urlLen s = s.length + 1 :=
  Nat.mod_eq_of_lt (by omega)

theorem geminiParseUrl_eq_some {malloc : UrlMalloc} {s : CStr} {url : GeminiUrl (urlLen s)} :
    geminiParseUrl malloc s = .ok (some url) ↔ ∃ block, malloc (urlLen s) = some block ∧
      geminiParseUrlLoop block 0 0 geminiDefaultPort s.octets = .ok (0, url) := by
  simp only [geminiParseUrl, geminiNewUrl, geminiParseUrlInto]
  cases malloc (urlLen s) with
  | none => simp
  | some block =>
    simp only [Option.some.injEq, exists_eq_left']
    cases geminiParseUrlLoop block 0 0 geminiDefaultPort s.octets with
    | error fault => simp [Except.map, bind, Except.bind]
    | ok r =>
      obtain ⟨rc, url'⟩ := r
      by_cases hrc : rc = 0 <;> simp [Except.map, bind, Except.bind, hrc]

theorem geminiParseUrl_safe (malloc : UrlMalloc) (s : CStr) (hlen : s.length < 2 ^ 32 - 1)
    (fault : Fault) : geminiParseUrl malloc s ≠ .error fault := by
  simp only [geminiParseUrl, geminiNewUrl, geminiParseUrlInto]
  cases malloc (urlLen s) with
  | none => simp
  | some block =>
    have hurl := urlLen_eq hlen
    have hs : s.octets.length = s.length := rfl
    obtain ⟨rc, url, hr, _⟩ : Unhindered (geminiParseUrlLoop block 0 0 geminiDefaultPort s.octets) :=
      unhindered_scheme (Nat.zero_le 9) (by omega) (by omega)
    simp [hr, Except.map, bind, Except.bind]

theorem location_of_geminiParseUrl {s : CStr} {url : GeminiUrl (urlLen s)}
    (h : geminiParseUrl malloc s = .ok (some url)) : ∃ loc : Location, s.octets = loc.text := by
  obtain ⟨block, _, h⟩ := geminiParseUrl_eq_some.1 h
  obtain ⟨loc, hs, _⟩ := accepted_location h
  exact ⟨loc, hs⟩

theorem geminiParseUrl_denotes {s : CStr} {url : GeminiUrl (urlLen s)}
    (h : geminiParseUrl malloc s = .ok (some url)) :
    ∃ loc : Location, s.octets = loc.text ∧ url.Denotes loc := by
  obtain ⟨block, _, hloop⟩ := geminiParseUrl_eq_some.1 h
  obtain ⟨loc, hs, hroom⟩ := accepted_location hloop
  obtain ⟨url', hloop', hurl⟩ := parse_location block loc (by rw [← hs]; exact s.noNul) (by omega)
  rw [← hs, hloop] at hloop'
  cases hloop'
  exact ⟨loc, hs, hurl⟩

theorem Location.room (loc : Location) :
    loc.host.length + loc.path.length + 9 ≤ loc.text.length := by
  simp only [Location.text, scheme, List.length_append, List.length_cons, List.length_nil]
  omega

theorem geminiParseUrl_text {malloc : UrlMalloc} {s : CStr} {loc : Location}
    {block : GeminiUrl (urlLen s)} (hlen : s.length < 2 ^ 32 - 1)
    (hmalloc : malloc (urlLen s) = some block) (hs : s.octets = loc.text) :
    ∃ url, geminiParseUrl malloc s = .ok (some url) ∧ url.Denotes loc := by
  have hroom := loc.room
  have hurl := urlLen_eq hlen
  rw [← hs, show s.octets.length = s.length from rfl] at hroom
  obtain ⟨url, hloop, hdenotes⟩ := parse_location block loc (by rw [← hs]; exact s.noNul)
    (by omega)
  rw [← hs] at hloop
  exact ⟨url, geminiParseUrl_eq_some.2 ⟨block, hmalloc, hloop⟩, hdenotes⟩

/-- The text of a location determines what it names. -/
theorem Location.eq_of_text {loc loc' : Location} (h : loc.text = loc'.text)
    (h0 : 0 ∉ loc.text) : loc.host = loc'.host ∧ loc.port = loc'.port ∧ loc.path = loc'.path := by
  have hroom := loc.room
  have hroom' := loc'.room
  rw [← h] at hroom'
  let block : GeminiUrl loc.text.length := ⟨0, 0, 0, .zeroed _⟩
  obtain ⟨url, hloop, hurl⟩ := parse_location block loc h0 (by omega)
  obtain ⟨url', hloop', hurl'⟩ := parse_location block loc' (by rwa [← h]) (by omega)
  rw [← h, hloop] at hloop'
  cases hloop'
  exact ⟨hurl.host.strAt_eq.symm.trans hurl'.host.strAt_eq, hurl.port.symm.trans hurl'.port,
    hurl.path.strAt_eq.symm.trans hurl'.path.strAt_eq⟩

theorem denotes_of_geminiParseUrl {s : CStr} {url : GeminiUrl (urlLen s)} {loc : Location}
    (h : geminiParseUrl malloc s = .ok (some url)) (hs : s.octets = loc.text) :
    url.Denotes loc := by
  obtain ⟨loc', hs', hurl⟩ := geminiParseUrl_denotes h
  have h0 : 0 ∉ loc'.text := by
    rw [← hs']
    exact s.noNul
  obtain ⟨hhost, hport, hpath⟩ := Location.eq_of_text (hs'.symm.trans hs) h0
  exact ⟨hhost ▸ hurl.host, hpath ▸ hurl.path, hurl.port.trans hport⟩

/-- `gemini_parse_url` takes exactly the URLs of the grammar, and stays in its block. -/
theorem geminiParseUrl_location (block : (len : Nat) → GeminiUrl len) (s : CStr)
    (hlen : s.length < 2 ^ 32 - 1) :
    (∀ fault, geminiParseUrl (fun len => some (block len)) s ≠ .error fault) ∧
      ((∃ url, geminiParseUrl (fun len => some (block len)) s = .ok (some url)) ↔
        ∃ loc : Location, s.octets = loc.text) ∧
      ∀ url (loc : Location), geminiParseUrl (fun len => some (block len)) s = .ok (some url) →
        s.octets = loc.text → url.Denotes loc := by
  refine ⟨geminiParseUrl_safe _ s hlen, ⟨?_, ?_⟩, ?_⟩
  · intro hurl
    obtain ⟨url, h⟩ := hurl
    exact location_of_geminiParseUrl h
  · intro hloc
    obtain ⟨loc, hs⟩ := hloc
    obtain ⟨url, h, _⟩ : ∃ url, geminiParseUrl (fun len => some (block len)) s = .ok (some url) ∧
        url.Denotes loc := geminiParseUrl_text hlen rfl hs
    exact ⟨url, h⟩
  · intro url loc h hs
    exact denotes_of_geminiParseUrl h hs

def blank (len : Nat) : GeminiUrl len := ⟨0, 0, 0, .zeroed len⟩

def IsHostName (host : List UInt8) : Prop :=
  host ≠ [] ∧ ∀ c ∈ host, IsHostOctet c

theorem isHostName_a : IsHostName [97] := by
  exact ⟨List.cons_ne_nil 97 [], List.forall_mem_singleton.2 (by decide)⟩

theorem isHostName_h : IsHostName [104] := by
  exact ⟨List.cons_ne_nil 104 [], List.forall_mem_singleton.2 (by decide)⟩

def Location.onDefaultPort {host : List UInt8} (h : IsHostName host) (tail : List UInt8) :
    Location where
  host
  service := none
  path := slash :: tail
  host_ne := h.1
  host_octets := h.2
  digits := fun ds hsome => absurd hsome (Option.not_mem_none ds)
  port_le := fun ds hsome => absurd hsome (Option.not_mem_none ds)
  rooted := rfl

def home : Location where
  host := [104]
  service := some [48, 55]
  path := [slash]
  host_ne := isHostName_h.1
  host_octets := isHostName_h.2
  digits := by
    intro _ hsome
    cases hsome
    exact List.forall_mem_cons.2 ⟨by decide, List.forall_mem_singleton.2 (by decide)⟩
  port_le := by
    intro _ hsome
    cases hsome
    decide
  rooted := rfl

def homeUrl : CStr := ⟨home.text, by decide⟩

theorem geminiParseUrl_home :
    ∃ url, geminiParseUrl (fun len => some (blank len)) homeUrl = .ok (some url) ∧
      url.Denotes home := by
  obtain ⟨_, haccepts, hdenotes⟩ := geminiParseUrl_location blank homeUrl (by decide)
  obtain ⟨url, h⟩ := haccepts.2 ⟨home, rfl⟩
  exact ⟨url, h, hdenotes url home h rfl⟩

end Geminon
