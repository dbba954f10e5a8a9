import Geminon.Streams
import Geminon.Ownership

namespace Geminon
open Memory Process Descriptors Copying
set_option autoImplicit true

/-- The process of `gurl`. `piped` is whether descriptor 1 still is the standard output; what is
written to it when it is something else goes astray. Writes take what `writes` says they do, and all
they are given when that has come to its end. -/
structure Gurl where
  client : ClientState
  piped : Bool
  writes : List (Option Nat)
  out : List UInt8
  astray : List UInt8

def Gurl.takes (g : Gurl) (n : Nat) : Option Nat :=
  match g.writes with
  | [] => some n
  | k :: _ => k.map fun k => max 1 (min k n)

def writeOut : Writer Gurl := fun octets n =>
  modifyGet fun g =>
    if !g.piped && (g.client.fds.get 1).isNone then (-1, g)
    else
      match g.takes n with
      | none => (-1, { g with writes := g.writes.tail })
      | some k =>
        if g.piped then
          (k, { g with writes := g.writes.tail, out := g.out ++ octets.take k })
        else (k, { g with writes := g.writes.tail, astray := g.astray ++ octets.take k })

def onClient (x : Proc ClientState α) : Proc Gurl α := fun g =>
  match x g.client with
  | .ok a client => .ok a { g with client }
  | .error fault client => .error fault { g with client }

/-- `gemini_response_close`, with what it does to the process. -/
def closeResponse (res : GeminiResponse) : Proc Gurl Unit :=
  modify fun g =>
    match (geminiResponseClose res).1 with
    | none => g
    | some fd =>
      { g with client.fds := g.client.fds.close fd, piped := g.piped && fd ≠ 1 }

/-- What becomes of the calls made for one URL; `stale` is what `nread` happens to hold. -/
structure Fetch where
  dial : Dial
  block : Malloc
  stale : Int
  reads : List (Option (List UInt8))

def gurlLoop : List (CStr × Fetch) → Proc Gurl Int
  | [] => pure 0
  | (url, fetch) :: fetches => do
    match ← onClient (geminiClientRequest fetch.dial url) with
    | none => pure 1
    | some res =>
      let (rc, _) ← geminiResponseStream writeOut fetch.block fetch.stale ⟨fetch.reads, []⟩ 8192
      if rc ≠ 0 then pure 1
      else
        closeResponse res
        gurlLoop fetches

structure Credentials where
  cert : Option CStr
  key : Option CStr

/-- An option that `getopt_long` returns; nothing is done about an unknown one. -/
inductive GurlOpt where
  | tlsCertificate (optarg : CStr)
  | tlsKey (optarg : CStr)
  | unknown

def gurlOption (c : Credentials) : GurlOpt → Credentials
  | .tlsCertificate optarg => { c with cert := some optarg }
  | .tlsKey optarg => { c with key := some optarg }
  | .unknown => c

structure ClientTls where
  context : Bool
  certificate : CStr → Bool
  privateKey : CStr → Bool

def geminiClientTls (calls : ClientTls) (cert key : Option CStr) : Int :=
  if !calls.context then -1
  else
    match cert, key with
    | some cert, some key =>
      if !calls.certificate cert then -2
      else if !calls.privateKey key then -3
      else 0
    | _, _ => 0

/-- `configure` of `gurl`, with what it gives to `printf`. -/
def gurlConfigure (calls : ClientTls) (env : Credentials) (opts : List GurlOpt) :
    Int × List UInt8 :=
  let c := opts.foldl gurlOption env
  if (c.cert.isSome && c.key.isNone) || (c.cert.isNone && c.key.isSome) then (-1, [])
  else if geminiClientTls calls c.cert c.key ≠ 0 then (-1, [])
  else
    match c.cert, c.key with
    | some cert, some key =>
      (0, (CStr.ofString "loading tls certificate from ").octets ++ cert.octets ++ [10] ++
        (CStr.ofString "loading tls private key from ").octets ++ key.octets ++ [10])
    | _, _ => (0, [])

/-- `main` of `gurl`: its exit code, and what it gave to `printf`. -/
def gurlMain (calls : ClientTls) (env : Credentials) (opts : List GurlOpt)
    (fetches : List (CStr × Fetch)) : Proc Gurl (Int × List UInt8) := do
  let (rc, printed) := gurlConfigure calls env opts
  if rc ≠ 0 then pure (1, printed)
  else
    let rc ← gurlLoop fetches
    pure (rc, printed)

theorem Outcome.onClient {x : Proc ClientState α} {g : Gurl} {Q : α → Gurl → Prop}
    (h : Outcome x g.client (fun a client => Q a { g with client := client }) fun _ _ => False) :
    Outcome (onClient x) g Q fun _ _ => False := by
  obtain ⟨a, client, hrun, hQ⟩ := h.returns
  apply Outcome.of_run _ hQ
  rw [Geminon.onClient, hrun]

structure Gurl.Prints (g : Gurl) : Prop where
  piped : g.piped = true
  writes : ∀ k ∈ g.writes, k.isSome

def Gurl.passed (g : Gurl) : List UInt8 := if g.piped then g.out else g.astray

theorem Gurl.takes_le {g : Gurl} (h : g.takes n = some k) (hn : 0 < n) : 0 < k ∧ k ≤ n := by
  unfold Gurl.takes at h
  cases hw : g.writes with
  | nil =>
    rw [hw] at h
    cases h
    exact ⟨hn, Nat.le_refl n⟩
  | cons k' writes =>
    rw [hw] at h
    obtain ⟨k', rfl, rfl⟩ := Option.map_eq_some_iff.1 h
    omega

theorem Gurl.Prints.takes {g : Gurl} (h : g.Prints) (n : Nat) : (g.takes n).isSome := by
  unfold Gurl.takes
  cases hw : g.writes with
  | nil => rfl
  | cons k writes =>
    rw [Option.isSome_map]
    exact h.writes k (by rw [hw]; exact List.mem_cons_self)

theorem writeOut_honours : Honours writeOut Gurl.passed := by
  intro octets n g hn _
  apply Outcome.modifyGet
  have hfails : ¬ (0 : Int) ≤ -1 := by decide
  split
  · exact ⟨0, Nat.zero_le n, (List.append_nil _).symm, fun h => absurd h hfails⟩
  · cases htakes : g.takes n with
    | none => exact ⟨0, Nat.zero_le n, (List.append_nil _).symm, fun h => absurd h hfails⟩
    | some k =>
      obtain ⟨hpos, hle⟩ := g.takes_le htakes hn
      refine ⟨k, hle, ?_, ?_⟩ <;> cases hp : g.piped <;> simp [Gurl.passed, hp, hpos]

/-- A write that, as long as `P` holds, takes at least one octet. -/
def Lasts (write : Writer σ) (P : σ → Prop) : Prop :=
  ∀ octets n s, P s → 0 < n →
    Outcome (write octets n) s (fun r s' => P s' ∧ ∃ k ≤ n, 0 < k ∧ r = k) fun _ _ => False

theorem writeOut_lasts (client : ClientState) (astray : List UInt8) :
    Lasts writeOut fun g => g.Prints ∧ g.client = client ∧ g.astray = astray := by
  intro octets n g hg hn
  obtain ⟨hprints, hclient, hastray⟩ := hg
  obtain ⟨k, hk⟩ := Option.isSome_iff_exists.1 (hprints.takes n)
  have htail : ∀ k ∈ g.writes.tail, k.isSome := fun k hk =>
    hprints.writes k (List.mem_of_mem_tail hk)
  have htakes := g.takes_le hk hn
  apply Outcome.modifyGet
  rw [hprints.piped, hk]
  exact ⟨⟨⟨rfl, htail⟩, hclient, hastray⟩, k, htakes.2, htakes.1, rfl⟩

section Lasting
variable {ι σ : Type} {block room turns : Nat} {reader : Reader ι block} {write : Writer σ}
  {P : σ → Prop} {steady : ι → Prop} {source : ι → List UInt8} {s : σ} {held : List UInt8}

theorem writeAndMove_lasts {buf : Buf block} {next : Buf block × Nat → Proc σ (Int × List Note)}
    {Q : Int → Prop} (notes : List Note) (hw : Lasts write P) (hs : P s) (hb : buf.Starts held)
    (hpos : 0 < held.length)
    (hnext : ∀ k buf' s', 0 < k → k ≤ held.length → buf'.Starts (held.drop k) → P s' →
      Outcome (next (buf', (held.drop k).length)) s' (fun r s'' => P s'' ∧ Q r.1)
        fun _ _ => False) :
    Outcome (do
      let nwrit ← write buf.octets held.length
      if nwrit < 0 then pure (nwrit, notes)
      else
        let moved ← checked (moveDown buf held.length nwrit.toNat)
        next moved) s (fun r s' => P s' ∧ Q r.1) fun _ _ => False := by
  apply Outcome.andThen (hw buf.octets held.length s hs hpos)
  intro nwrit s' hwrote
  obtain ⟨hs', k, hk, hk0, rfl⟩ := hwrote
  obtain ⟨buf', hmove, hb'⟩ := moveDown_starts hb hk
  rw [if_neg (by omega), Int.toNat_natCast, hmove]
  exact Outcome.bind (.pure (hnext k buf' s' hk0 hk hb' hs'))

theorem flushLoop_lasts {buf : Buf block} (hw : Lasts write P) (hs : P s) (hb : buf.Starts held)
    (hturns : held.length ≤ turns) :
    Outcome (flushLoop write buf turns held.length) s (fun r s' => P s' ∧ r.1 = 0)
      fun _ _ => False := by
  induction turns generalizing held buf s with
  | zero =>
    rw [Nat.le_zero.1 hturns, flushLoop_done]
    exact .pure ⟨hs, rfl⟩
  | succ turns ih =>
    cases Nat.eq_zero_or_pos held.length with
    | inl hzero =>
      rw [hzero, flushLoop_done]
      exact .pure ⟨hs, rfl⟩
    | inr hpos =>
      rw [flushLoop_writes buf turns hpos]
      apply writeAndMove_lasts (Q := (· = 0)) [.pending held.length] hw hs hb hpos
      intro k buf' s' hk0 hk hb' hs'
      apply Outcome.andThen (ih hs' hb' (by rw [List.length_drop]; omega))
      intro r s'' hr
      exact .pure hr

/-- Whether reads fail before their end, which a read that brings something leaves as it is. -/
structure Reader.Fails (reader : Reader ι block) (steady breaks : ι → Prop) : Prop where
  fails : n < block → reader.read i buf n = .ok (r, buf', i') → r < 0 → breaks i
  ends : n < block → reader.read i buf n = .ok (0, buf', i') → ¬ breaks i
  keeps : steady i → reader.read i buf n = .ok (r, buf', i') → 0 < r → (breaks i' ↔ breaks i)

theorem copyLoop_lasts {breaks : ι → Prop} {i : ι} {buf : Buf block} (hw : Lasts write P)
    (hr : Supplies reader steady source room) (hbreaks : reader.Fails steady breaks)
    (hi : steady i) (hs : P s) (hb : buf.Starts held) (hroom : held.length < room) :
    Outcome (copyLoop reader write i buf held.length) s
      (fun r s' => P s' ∧ (r.1 = 0 ↔ ¬ breaks i)) fun _ _ => False := by
  induction hk : reader.left i using Nat.strong_induction_on generalizing held i buf s with
  | _ k ih =>
    obtain ⟨r, buf', i', hread, hmore⟩ := hr.reads i buf held hi hb hroom
    have hblock := lt_of_lt_of_le hroom hr.room_le
    cases lt_or_ge r 0 with
    | inl hneg =>
      rw [copyLoop_fails hread hneg]
      exact .pure ⟨hs, fun h => absurd h (by omega),
        fun h => absurd (hbreaks.fails hblock hread hneg) h⟩
    | inr hnonneg =>
      obtain ⟨hi', piece, rfl, hb', hroom', -, -⟩ := hmore hnonneg
      cases Nat.eq_zero_or_pos piece.length with
      | inl hzero =>
        rw [hzero] at hread
        have hquiet := hbreaks.ends hblock hread
        obtain rfl := List.length_eq_zero_iff.1 hzero
        rw [List.append_nil] at hb'
        rw [copyLoop_ends hread]
        apply Outcome.andThen (flushLoop_lasts hw hs hb' (Nat.le_refl _))
        intro r s' hr'
        exact .pure ⟨hr'.1, iff_of_true hr'.2 hquiet⟩
      | inr hpos =>
        have hless : reader.left i' < k := hk ▸ reader.less hread (Int.ofNat_lt.2 hpos)
        have hlen : held.length + piece.length = (held ++ piece).length :=
          List.length_append.symm
        rw [copyLoop_reads hread (Int.ofNat_lt.2 hpos), Int.toNat_natCast, hlen]
        apply writeAndMove_lasts (Q := (· = 0 ↔ ¬ breaks i))
          [.asked (block - held.length), .pending (held ++ piece).length] hw hs hb' (by omega)
        intro k buf₁ s' hk0 hk' hb₁ hs'
        rw [← hbreaks.keeps hi hread (Int.ofNat_lt.2 hpos)]
        apply Outcome.andThen (ih _ hless hi' hs' hb₁ (by rw [List.length_drop]; omega) rfl)
        intro r s'' hr'
        exact .pure hr'

end Lasting

theorem read_failsAfter (h : read reads want = (some piece, reads')) (hs : Steady reads) :
    failsAfter reads' = failsAfter reads := by
  cases piece with
  | cons c piece => exact (read_piece (List.cons_ne_nil c piece) h).2.1.symm
  | nil =>
    unfold read at h
    split at h
    · cases h
      rfl
    · cases h
    · rename_i whole rest
      have hwhole : whole ≠ [] := fun he => hs (he ▸ List.mem_cons_self)
      split at h
      · cases h
        exact absurd rfl hwhole
      · obtain ⟨htake, rfl⟩ := Prod.mk.inj h
        obtain rfl := (List.take_eq_nil_iff.1 (Option.some.inj htake)).resolve_right hwhole
        rfl

theorem sslRead_failsAfter {ssl ssl' : Tls} (h : sslRead ssl n = (some piece, ssl'))
    (hs : Steady ssl.reads) : failsAfter ssl'.reads = failsAfter ssl.reads := by
  unfold sslRead at h
  split at h
  · cases h
  · cases hread : read ssl.reads (intOfSize n).toNat with
    | mk piece₁ reads =>
      rw [hread] at h
      cases h
      exact read_failsAfter hread hs

theorem geminiResponseReadLoop_failsAfter {ssl ssl' : Tls} {buf buf' : Buf size}
    (h : geminiResponseReadLoop ssl buf cursor n ntotal nread = .ok (r, buf', ssl'))
    (hs : Steady ssl.reads) (hr : 0 ≤ r) : failsAfter ssl'.reads = failsAfter ssl.reads := by
  induction n using Nat.strong_induction_on generalizing ssl buf cursor ntotal nread with
  | _ n ih =>
    rw [geminiResponseReadLoop] at h
    split at h
    · rename_i hn
      split at h
      · cases h
        exact absurd hr (by decide)
      · rename_i ssl₁ hread
        cases h
        exact sslRead_failsAfter hread hs
      · rename_i c piece ssl₁ hread
        obtain ⟨buf₁, _, h⟩ := bind_eq_ok h
        have hs₁ := (sslRead_later hread).1.steady hs
        rw [ih _ (Nat.sub_lt hn (Nat.succ_pos piece.length)) h hs₁]
        exact sslRead_failsAfter hread hs
    · split at h <;> cases h <;> rfl

theorem responseReader_read (stale : Int) (hblock : block < 2 ^ 31) (hn : n < block)
    {buf buf' : Buf block} (h : (responseReader stale block).read ssl buf n = .ok (r, buf', ssl')) :
    r = if failsAfter ssl.reads = true ∧ (ahead ssl.reads).length < block - n then -1
      else (((ahead ssl.reads).take (block - n)).length : Int) := by
  have hle : block - n ≤ 2 ^ 31 - 1 := by omega
  have hint : intOfSize (block - n) = (block - n : Nat) := intOfSize_small (hle.trans (by decide))
  have hlen : (buf.octets.take n).length = n := by
    rw [List.length_take, buf.size]
    omega
  have hb : buf.Starts (buf.octets.take n) := ⟨_, (List.take_append_drop n _).symm⟩
  obtain ⟨buf₁, ssl₁, hread, -⟩ :=
    geminiResponseRead_gets stale ssl (by omega : 0 < block - n) hb (by omega)
  have hfails : Fails (block - n) ssl.reads ↔
      failsAfter ssl.reads = true ∧ (ahead ssl.reads).length < block - n := by
    rw [Fails, hint]
    constructor
    · intro h
      obtain ⟨hfail, hlt, -⟩ := h.resolve_left (by omega)
      exact ⟨hfail, hlt⟩
    · intro h
      exact .inr ⟨h.1, h.2, by omega⟩
  rw [hlen] at hread
  obtain ⟨rfl, -⟩ := Prod.mk.inj (Except.ok.inj (h.symm.trans hread))
  rw [got, hint, Int.toNat_natCast]
  simp only [hfails]

theorem responseReader_fails (stale : Int) (hblock : block < 2 ^ 31) :
    (responseReader stale block).Fails (fun ssl => Steady ssl.reads)
      (fun ssl => failsAfter ssl.reads = true) where
  fails := by
    intro n ssl buf r buf' ssl' hn h hr
    by_contra hfails
    rw [responseReader_read stale hblock hn h, if_neg fun hf => hfails hf.1] at hr
    omega
  ends := by
    intro n ssl buf buf' ssl' hn h hfails
    have hr := responseReader_read stale hblock hn h
    split at hr
    · omega
    · rename_i hlong
      rw [List.length_take] at hr
      exact hlong ⟨hfails, by omega⟩
  keeps := by
    intro ssl buf n r buf' ssl' hs h hr
    rw [geminiResponseReadLoop_failsAfter h hs hr.le]

theorem geminiResponseStream_prints {g : Gurl} (hg : g.Prints) (hs : Steady reads) (block : Malloc)
    (stale : Int) :
    Outcome (geminiResponseStream writeOut block stale ⟨reads, []⟩ 8192) g
      (fun r g' => (g'.Prints ∧ g'.client = g.client ∧ g'.astray = g.astray) ∧
        (r.1 = 0 ↔ block.isSome ∧ failsAfter reads = false) ∧
        ∃ out, g'.out = g.out ++ out ∧ out <+: stock reads ∧ (r.1 = 0 → out = stock reads))
      fun _ _ => False := by
  have hcopies : CopiesExactly Gurl.passed 8192 (stock reads)
      (geminiResponseStream writeOut block stale ⟨reads, []⟩ 8192) g :=
    geminiResponseStream_copies writeOut_honours (by decide) hs block stale g
  obtain ⟨rc, notes, g', out, hrun, hpassed, hprefix, hwhole, -⟩ := hcopies
  have hlasts : Outcome (geminiResponseStream writeOut block stale ⟨reads, []⟩ 8192) g
      (fun r g' => (g'.Prints ∧ g'.client = g.client ∧ g'.astray = g.astray) ∧
        (r.1 = 0 ↔ block.isSome ∧ failsAfter reads = false)) fun _ _ => False := by
    cases block with
    | none => exact .pure ⟨⟨hg, rfl, rfl⟩, by simp⟩
    | some mem =>
      have hcopy := copyLoop_lasts (i := ⟨reads, []⟩) (writeOut_lasts g.client g.astray)
        (responseReader_supplies stale 8192) (responseReader_fails stale (by decide)) hs
        ⟨hg, rfl, rfl⟩ (Buf.filled 8192 mem).starts_nil (by decide)
      exact hcopy.imp fun r g' h => ⟨h.1, by simpa using h.2⟩
  obtain ⟨hkept, hrc⟩ := hlasts.of_ok hrun
  refine .of_run hrun ⟨hkept, hrc, out, ?_, hprefix, hwhole⟩
  rwa [Gurl.passed, Gurl.passed, if_pos hkept.1.piped, if_pos hg.piped] at hpassed

theorem geminiClientRequest_silent (dial : Dial) (url : CStr) (s : ClientState) :
    Outcome (geminiClientRequest dial url) s (fun res s' => res = none → s'.sent = s.sent)
      fun _ _ => True := by
  unfold geminiClientRequest
  cases geminiParseUrl dial.url url with
  | error fault => exact .bind (.throw trivial)
  | ok parsed =>
    apply Outcome.bind (.pure _)
    cases parsed with
    | none => exact .pure fun _ => rfl
    | some u =>
      dsimp only
      rw [portService_eq]
      apply Outcome.bind (.pure (.bind (.modify _)))
      cases dial.info with
      | none => exact .pure fun _ => rfl
      | some info =>
        cases hany : info.any fun rp => rp.socket && rp.connect with
        | false =>
          refine .bind (.of_run (by rw [connectRoute_eq, hany]; rfl) ?_)
          exact .pure fun _ => rfl
        | true =>
          refine .bind (.of_run (by rw [connectRoute_eq, hany]; rfl) ?_)
          cases dial.malloc with
          | none => exact .bind (.modify (.pure fun _ => rfl))
          | some garbage =>
            dsimp only
            cases dial.sslNew with
            | false => exact .bind (.modify (.pure fun _ => rfl))
            | true =>
              cases dial.sslConnect with
              | false => exact .bind (.modify (.pure fun _ => rfl))
              | true => exact .bind (.modify (.bind (.modify (.pure nofun))))

structure Fetch.Asks (fetch : Fetch) (url : CStr) : Prop where
  accepted : ∃ u, geminiParseUrl fetch.dial.url url = .ok (some u)
  connects : fetch.dial.Connects
  malloc : fetch.dial.malloc.isSome

def Fetch.Whole (fetch : Fetch) : Prop :=
  fetch.block.isSome ∧ failsAfter fetch.reads = false

/-- What a command line is taken for to begin with: URLs of a length that the parser can count,
requests that are sent whole, a response whose block does not happen to call descriptor 1 its
own, and reads that bring nothing only at the end. -/
structure Fetch.Usual (fetch : Fetch) (url : CStr) : Prop where
  url : url.length < 2 ^ 32 - 1
  sslWrite : ∀ octets, fetch.dial.sslWrite octets = true
  fd : fetch.dial.malloc ≠ some 1
  reads : Steady fetch.reads

/-- What `gurl` prints and sends, up to the first response that is refused or broken. -/
inductive Printed : List (CStr × Fetch) → List UInt8 → List UInt8 → Int → Prop where
  | done : Printed [] [] [] 0
  | whole : fetch.Asks url → fetch.Whole → Printed fetches out sent code →
      Printed ((url, fetch) :: fetches) (stock fetch.reads ++ out) (url.octets ++ crlf ++ sent) code
  | broken : fetch.Asks url → ¬ fetch.Whole → out <+: stock fetch.reads →
      Printed ((url, fetch) :: fetches) out (url.octets ++ crlf) 1
  | refused : ¬ fetch.Asks url → Printed ((url, fetch) :: fetches) [] [] 1

theorem geminiClientRequest_asks {fetch : Fetch} {url : CStr} (h : fetch.Usual url)
    (s : ClientState) :
    Outcome (geminiClientRequest fetch.dial url) s (fun res s' => match res with
      | none => ¬ fetch.Asks url ∧ s'.sent = s.sent
      | some res => fetch.Asks url ∧ res.fd ≠ 1 ∧ s'.sent = s.sent ++ (url.octets ++ crlf))
      fun _ _ => False := by
  cases hparse : geminiParseUrl fetch.dial.url url with
  | error fault => exact absurd hparse (geminiParseUrl_safe _ _ h.url _)
  | ok parsed =>
    cases parsed with
    | none =>
      unfold geminiClientRequest
      rw [hparse]
      refine .bind (.pure (.pure ⟨fun hasks => ?_, rfl⟩))
      obtain ⟨u, hu⟩ := hasks.accepted
      rw [hparse] at hu
      cases hu
    | some u =>
      have hspec := (geminiClientRequest_spec hparse s).and
        (geminiClientRequest_silent fetch.dial url s)
      apply hspec.mono _ fun fault s' hf => hf.1
      intro res s' hres
      obtain ⟨⟨-, hanswered⟩, hsilent⟩ := hres
      cases res with
      | none =>
        refine ⟨fun hasks => ?_, hsilent rfl⟩
        have hmalloc := hasks.malloc
        rw [hanswered.2 hasks.connects] at hmalloc
        cases hmalloc
      | some res =>
        obtain ⟨hconnects, hmalloc, -, -, hsent⟩ := hanswered
        refine ⟨⟨⟨u, hparse⟩, hconnects, by rw [hmalloc]; rfl⟩, ?_, hsent h.sslWrite⟩
        intro hfd
        exact h.fd (hfd ▸ hmalloc)

theorem geminiResponseClose_fd (res : GeminiResponse) :
    (geminiResponseClose res).1 = if 0 ≤ res.fd then some res.fd.toNat else none := by
  unfold geminiResponseClose
  cases res.ssl <;> by_cases hfd : 0 ≤ res.fd <;> simp [hfd]

theorem closeResponse_keeps {g : Gurl} (hg : g.Prints) (hfd : res.fd ≠ 1) :
    Outcome (closeResponse res) g (fun _ g' => g'.Prints ∧ g'.client.sent = g.client.sent ∧
      g'.out = g.out ∧ g'.astray = g.astray) fun _ _ => False := by
  apply Outcome.modify
  cases hclose : (geminiResponseClose res).1 with
  | none => exact ⟨hg, rfl, rfl, rfl⟩
  | some fd =>
    have hne : fd ≠ 1 := by
      rw [geminiResponseClose_fd] at hclose
      split at hclose
      · have htoNat := Option.some.inj hclose
        omega
      · cases hclose
    refine ⟨⟨?_, hg.writes⟩, rfl, rfl, rfl⟩
    simp [hg.piped, hne]

theorem gurlLoop_prints (fetches : List (CStr × Fetch)) (husual : ∀ p ∈ fetches, p.2.Usual p.1)
    {g : Gurl} (hg : g.Prints) :
    Outcome (gurlLoop fetches) g (fun code g' => ∃ out sent, Printed fetches out sent code ∧
      g'.out = g.out ++ out ∧ g'.client.sent = g.client.sent ++ sent ∧ g'.astray = g.astray)
      fun _ _ => False := by
  induction fetches generalizing g with
  | nil => exact .pure ⟨[], [], .done, (List.append_nil _).symm, (List.append_nil _).symm, rfl⟩
  | cons p fetches ih =>
    obtain ⟨url, fetch⟩ := p
    have husual₁ := husual _ List.mem_cons_self
    rw [gurlLoop]
    apply Outcome.andThen (Outcome.onClient
      (Q := fun res g' => g'.Prints ∧ g'.out = g.out ∧ g'.astray = g.astray ∧ match res with
        | none => ¬ fetch.Asks url ∧ g'.client.sent = g.client.sent
        | some res => fetch.Asks url ∧ res.fd ≠ 1 ∧
          g'.client.sent = g.client.sent ++ (url.octets ++ crlf))
      ((geminiClientRequest_asks husual₁ g.client).imp fun res s' h =>
        ⟨⟨hg.piped, hg.writes⟩, rfl, rfl, h⟩))
    intro res g₁ h₁
    obtain ⟨hg₁, hout₁, hastray₁, hres⟩ := h₁
    cases res with
    | none =>
      exact .pure ⟨[], [], .refused hres.1, by rw [hout₁, List.append_nil],
        by rw [hres.2, List.append_nil], hastray₁⟩
    | some res =>
      obtain ⟨hasks, hfd, hsent₁⟩ := hres
      apply Outcome.andThen
        (geminiResponseStream_prints hg₁ husual₁.reads fetch.block fetch.stale)
      intro r g₂ h₂
      obtain ⟨⟨hg₂, hclient₂, hastray₂⟩, hrc, out, hout₂, hprefix, hwhole⟩ := h₂
      dsimp only
      split
      · rename_i hne
        refine .pure ⟨out, _, .broken hasks (fun h => hne (hrc.2 h)) hprefix, ?_, ?_, ?_⟩
        · rw [hout₂, hout₁]
        · rw [hclient₂, hsent₁]
        · rw [hastray₂, hastray₁]
      · rename_i heq
        have heq := not_not.1 heq
        apply Outcome.andThen (closeResponse_keeps hg₂ hfd)
        intro _ g₃ h₃
        obtain ⟨hg₃, hsent₃, hout₃, hastray₃⟩ := h₃
        apply (ih (fun p hp => husual p (List.mem_cons_of_mem _ hp)) hg₃).imp
        intro code g' h'
        obtain ⟨out', sent', hprinted, hout', hsent', hastray'⟩ := h'
        refine ⟨_, _, .whole hasks (hrc.1 heq) hprinted, ?_, ?_, ?_⟩
        · rw [hout', hout₃, hout₂, hout₁, hwhole heq, List.append_assoc]
        · rw [hsent', hsent₃, hclient₂, hsent₁, List.append_assoc]
        · rw [hastray', hastray₃, hastray₂, hastray₁]

/-- Two files for a certificate and a key, or none, and TLS can be set up with them. -/
structure Credentials.Usable (c : Credentials) (calls : ClientTls) : Prop where
  pair : c.cert.isSome ↔ c.key.isSome
  context : calls.context = true
  certificate : ∀ cert ∈ c.cert, calls.certificate cert = true
  privateKey : ∀ key ∈ c.key, calls.privateKey key = true

theorem gurlConfigure_eq_zero (calls : ClientTls) (env : Credentials) (opts : List GurlOpt) :
    (gurlConfigure calls env opts).1 = 0 ↔ (opts.foldl gurlOption env).Usable calls := by
  unfold gurlConfigure
  generalize opts.foldl gurlOption env = c
  obtain ⟨cert, key⟩ := c
  constructor
  · intro h
    cases cert <;> cases key <;> cases hctx : calls.context <;>
      simp [geminiClientTls, hctx] at h
    · exact ⟨Iff.rfl, hctx, nofun, nofun⟩
    · rename_i cert key
      cases hcert : calls.certificate cert <;> cases hkey : calls.privateKey key <;>
        simp [hcert, hkey] at h
      exact ⟨by simp, hctx, by simpa using hcert, by simpa using hkey⟩
  · intro h
    obtain ⟨hpair, hctx, hcert, hkey⟩ := h
    cases cert <;> cases key <;> simp at hpair hcert hkey <;>
      simp [geminiClientTls, *]

def Credentials.announced : Credentials → List UInt8
  | ⟨some cert, some key⟩ =>
    (CStr.ofString "loading tls certificate from ").octets ++ cert.octets ++ [10] ++
      ((CStr.ofString "loading tls private key from ").octets ++ key.octets ++ [10])
  | _ => []

theorem gurlConfigure_announced (calls : ClientTls) (env : Credentials) (opts : List GurlOpt) :
    (gurlConfigure calls env opts).2 =
      if (gurlConfigure calls env opts).1 = 0 then (opts.foldl gurlOption env).announced
      else [] := by
  unfold gurlConfigure
  generalize opts.foldl gurlOption env = c
  obtain ⟨cert, key⟩ := c
  dsimp only
  split
  · rfl
  · split
    · rfl
    · cases cert <;> cases key <;> simp [Credentials.announced]

/-- `gurl` prints the responses one after the other, each octet once, and tells if that was all. -/
theorem gurlMain_printed (calls : ClientTls) (env : Credentials) (opts : List GurlOpt)
    (fetches : List (CStr × Fetch)) (husual : ∀ p ∈ fetches, p.2.Usual p.1) {g : Gurl}
    (hg : g.Prints) :
    Outcome (gurlMain calls env opts fetches) g (fun r g' => ∃ out sent,
      g'.out = g.out ++ out ∧ g'.client.sent = g.client.sent ++ sent ∧ g'.astray = g.astray ∧
      ((opts.foldl gurlOption env).Usable calls →
        Printed fetches out sent r.1 ∧ r.2 = (opts.foldl gurlOption env).announced) ∧
      (¬ (opts.foldl gurlOption env).Usable calls → out = [] ∧ sent = [] ∧ r = (1, [])))
      fun _ _ => False := by
  unfold gurlMain
  have hrc := gurlConfigure_eq_zero calls env opts
  have hprinted := gurlConfigure_announced calls env opts
  cases hconf : gurlConfigure calls env opts with
  | mk rc printed =>
    rw [hconf] at hrc hprinted
    dsimp only at hprinted ⊢
    split
    · rename_i hne
      rw [if_neg hne] at hprinted
      rw [hprinted]
      exact .pure ⟨[], [], (List.append_nil _).symm, (List.append_nil _).symm, rfl,
        fun h => absurd (hrc.2 h) hne, fun _ => ⟨rfl, rfl, rfl⟩⟩
    · rename_i heq
      rw [if_pos (not_not.1 heq)] at hprinted
      apply Outcome.andThen (gurlLoop_prints fetches husual hg)
      intro code g' h
      obtain ⟨out, sent, hloop, hout, hsent, hastray⟩ := h
      exact .pure ⟨out, sent, hout, hsent, hastray, fun _ => ⟨hloop, hprinted⟩,
        fun h => absurd (hrc.1 (not_not.1 heq)) h⟩

def Fetch.smooth (content : List UInt8) : Fetch :=
  ⟨Geminon.smooth fun len => some (blank len), some fun _ => 0, 0, [some content]⟩

theorem Fetch.smooth_usual {content : List UInt8} (hne : content ≠ [])
    (hlen : url.length < 2 ^ 32 - 1) :
    (Fetch.smooth content).Usual url := by
  refine ⟨hlen, fun _ => rfl, ?_, ?_⟩
  · intro hfd
    exact absurd (Option.some.inj hfd) (show (0 : Int) ≠ 1 by decide)
  intro hmem
  exact hne (Option.some.inj (List.mem_singleton.1 hmem)).symm

def Gurl.started : Gurl := ⟨⟨.empty, [], []⟩, true, [some 1], [], []⟩

def someCredentials : Credentials := ⟨some ⟨[67], by decide⟩, some ⟨[75], by decide⟩⟩

theorem gurlMain_printed_home :
    Outcome (gurlMain ⟨true, fun _ => true, fun _ => true⟩ someCredentials []
        [(homeUrl, .smooth [104, 105])]) .started (fun r g' => ∃ out sent,
      g'.out = [] ++ out ∧ g'.client.sent = [] ++ sent ∧ g'.astray = [] ∧
      (someCredentials.Usable ⟨true, fun _ => true, fun _ => true⟩ →
        Printed [(homeUrl, .smooth [104, 105])] out sent r.1 ∧ r.2 = someCredentials.announced) ∧
      (¬ someCredentials.Usable ⟨true, fun _ => true, fun _ => true⟩ →
        out = [] ∧ sent = [] ∧ r = (1, [])))
      fun _ _ => False :=
  gurlMain_printed ⟨true, fun _ => true, fun _ => true⟩ someCredentials []
    [(homeUrl, .smooth [104, 105])]
    (List.forall_mem_singleton.2 (Fetch.smooth_usual (List.cons_ne_nil _ _) (by decide)))
    (g := Gurl.started) ⟨rfl, List.forall_mem_singleton.2 rfl⟩

end Geminon
