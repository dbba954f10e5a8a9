import Geminon.Descriptors
import Geminon.PortOptions
import Geminon.Process

namespace Geminon
open Memory Decimal Descriptors Process
set_option autoImplicit true

/-- What becomes of the calls of `gemini_bind`; `bind` is granted or refused for a port. -/
structure Sockets where
  socket : Bool
  setsockopt : Bool
  bind : UInt16 → Bool
  listen : Bool

/-- The sockets of a process, each with the port it is bound to, and `sockfd` of its server. -/
structure Listening where
  fds : FdTable (Option UInt16)
  sockfd : Int

/-- The port that `htons` makes of its argument, which it takes as an `unsigned short`. -/
def htons (port : Int) : UInt16 := UInt16.ofInt port

def dropSocket (fd : Nat) : Proc Listening Unit :=
  modify fun l => { l with fds := l.fds.close fd }

def geminiBind (calls : Sockets) (port : Int) : Proc Listening Int := do
  if !calls.socket then pure (-1)
  else
    let fd ← modifyGet fun l => (l.fds.unused, { l with fds := l.fds.add none })
    if !calls.setsockopt then
      dropSocket fd
      pure (-1)
    else if !calls.bind (htons port) then
      dropSocket fd
      pure (-1)
    else
      modify fun l => { l with fds := l.fds.set fd (some (some (htons port))) }
      if !calls.listen then
        dropSocket fd
        pure (-1)
      else
        modify fun l => { l with sockfd := fd }
        pure 0

def Sockets.grants (calls : Sockets) (port : UInt16) : Bool :=
  calls.socket && calls.setsockopt && calls.bind port && calls.listen

/-- A server comes to listen on the port that `htons` makes, or nothing is left of the attempt. -/
theorem geminiBind_spec (calls : Sockets) (port : Int) (l : Listening) :
    Outcome (geminiBind calls port) l
      (fun rc l' => if calls.grants (htons port) then
          rc = 0 ∧ l' = ⟨l.fds.add (some (htons port)), l.fds.unused⟩
        else rc = -1 ∧ l' = l)
      fun _ _ => False := by
  have hclosed (d : Option UInt16) : (l.fds.set l.fds.unused (some d)).close l.fds.unused = l.fds :=
    l.fds.close_add d
  unfold geminiBind Sockets.grants
  cases calls.socket with
  | false => exact .pure ⟨rfl, rfl⟩
  | true =>
    apply Outcome.bind (.modifyGet _)
    cases calls.setsockopt with
    | false => exact .bind (.modify (.pure ⟨rfl, congrArg (Listening.mk · _) (hclosed none)⟩))
    | true =>
      cases calls.bind (htons port) with
      | false => exact .bind (.modify (.pure ⟨rfl, congrArg (Listening.mk · _) (hclosed none)⟩))
      | true =>
        apply Outcome.bind (.modify _)
        have hbound : (l.fds.add none).set l.fds.unused (some (some (htons port))) =
          l.fds.add (some (htons port)) := l.fds.set_set _ _ _
        rw [hbound]
        cases calls.listen with
        | false => exact .bind (.modify (.pure ⟨rfl, congrArg (Listening.mk · _) (hclosed _)⟩))
        | true => exact .bind (.modify (.pure ⟨rfl, rfl⟩))

def Startup.on (calls : Startup) (sockets : Sockets) (l : Listening) : Startup where
  calloc := calls.calloc
  block := calls.block
  node := calls.node
  bind port :=
    match geminiBind sockets port l with
    | .ok rc _ => rc = 0
    | .error _ _ => false
  tls := calls.tls

theorem bind_on (calls : Startup) (sockets : Sockets) (l : Listening) (port : Int) :
    (calls.on sockets l).bind port = sockets.grants (htons port) := by
  obtain ⟨rc, l', hrun, hspec⟩ := (geminiBind_spec sockets port l).returns
  have hrc : (calls.on sockets l).bind port = decide (rc = 0) := by
    simp only [Startup.on, hrun]
  rw [hrc]
  cases hgrants : sockets.grants (htons port) with
  | false =>
    rw [hgrants] at hspec
    rw [hspec.1]
    rfl
  | true =>
    rw [hgrants] at hspec
    rw [hspec.1]
    rfl

/-- A port that the arguments of `-l`, or without any of them `GEMINON_PORT`, ask for. -/
def Asked (port : Option CStr) (args : List CStr) (n : Nat) : Prop :=
  match args.getLast?, port with
  | some arg, _ => Numeric arg.octets ∧ value arg.octets = n
  | none, some s => Numeric s.octets ∧ value s.octets = n
  | none, none => n = geminiDefaultPort

/-- With these arguments of `-l` and this `GEMINON_PORT` no run of `configure` leaves the range of
`int`, and one that succeeds has bound a socket to the very port that was asked for: whichever
ports a system grants, that one is among them. -/
def ListensAsAsked (port : Option CStr) (args : List CStr) : Prop :=
  ∀ (calls : Startup) (sockets : Sockets) (l : Listening) (env : Environment) (opts : List Opt)
    (extra : Bool) (s : Serving), env.port = port → opts.filterMap Opt.port = args →
    NoOverflow (configure (calls.on sockets l) env opts extra s) ∧
      ∀ s', configure (calls.on sockets l) env opts extra s = .ok (0, s') →
        ∃ n, Asked port args n ∧ 1 ≤ n ∧ n ≤ 65535 ∧ sockets.bind (UInt16.ofNat n) = true

/-- `GEMINON_PORT` ends `configure`; or, with no argument of `-l` overlong up to the one that ends
it, there is such a one, or a port is asked for that is within range and, where it is not asked for
by `-l`, the default one. -/
def SoundPorts (port : Option CStr) (args : List CStr) : Prop :=
  (∃ s ∈ port, ¬ Numeric s.octets) ∨
    (∀ front arg rest, args = front ++ arg :: rest → (∀ a ∈ front, Numeric a.octets) →
      ¬ Overlong arg.octets) ∧
      ((∃ arg ∈ args, ¬ Numeric arg.octets) ∨
        ∃ n, Asked port args n ∧ 1 ≤ n ∧ n ≤ 65535 ∧ (args = [] → n = geminiDefaultPort))

theorem htons_natCast (n : Nat) : htons n = UInt16.ofNat n := by
  apply UInt16.toNat_inj.1
  simp only [htons, UInt16.ofInt, UInt16.toNat_ofNat']
  omega

theorem invalid_iff (port : Option CStr) :
    (port.any fun port => !port.octets.all fun c => IsDigit c) = true ↔
      ∃ s ∈ port, ¬ Numeric s.octets := by
  cases port with
  | none => simp
  | some s => simp [Numeric]

theorem portOrDefault_asked {c : Configuration} (hasked : Asked port args n) (hpos : 1 ≤ n)
    (hdefault : args = [] → n = geminiDefaultPort)
    (hport : c.port = args.getLast?.elim (0 : Int) fun arg => (value arg.octets : Nat)) :
    c.portOrDefault = n := by
  unfold Configuration.portOrDefault
  cases hlast : args.getLast? with
  | none =>
    rw [hlast] at hport
    rw [hdefault (List.getLast?_eq_none_iff.1 hlast), hport]
    rfl
  | some arg =>
    have hvalue : value arg.octets = n := by
      unfold Asked at hasked
      rw [hlast] at hasked
      exact hasked.2
    rw [hlast] at hport
    change c.port = (value arg.octets : Nat) at hport
    rw [hport, hvalue, if_pos (by omega)]

theorem listensAsAsked_of_sound (h : SoundPorts port args) : ListensAsAsked port args := by
  intro calls sockets l env opts extra s henv hargs
  unfold configure
  split
  · exact ⟨.ok _, fun _ hok => by cases hok⟩
  split
  · exact ⟨.ok _, fun _ hok => by cases hok⟩
  · rename_i hvalid
    rw [invalid_iff, henv] at hvalid
    obtain ⟨hshort, hfound⟩ := h.resolve_left hvalid
    have hport := configureLoop_port ⟨s, 0, 0, env.certificate, env.privateKey, [], 8⟩ opts
    rw [hargs] at hport
    cases hloop : configureLoop ⟨s, 0, 0, env.certificate, env.privateKey, [], 8⟩ opts with
    | error fault =>
      rw [hloop] at hport
      constructor
      · intro hoverflow
        obtain ⟨front, arg, rest, he, hfront, hlong⟩ := hport (Except.error.inj hoverflow)
        exact hshort front arg rest he hfront hlong
      · intro s' hok
        cases hok
    | ok r =>
      obtain ⟨rc, c⟩ := r
      rw [hloop] at hport
      cases rc with
      | some rc =>
        refine ⟨.ok _, fun s' hok => ?_⟩
        cases hok
        exact absurd rfl (configureLoop_spec hloop)
      | none =>
        refine ⟨configureServer_noOverflow _ _ _, fun s' hok => ?_⟩
        obtain ⟨_, _, _, hbound, _⟩ := configureServer_inv hok
        obtain hbad | ⟨n, hasked, hpos, hmax, hdefault⟩ := hfound
        · obtain ⟨arg, harg, hbad⟩ := hbad
          exact absurd (hport.1 arg harg) hbad
        · rw [bind_on, portOrDefault_asked hasked hpos hdefault hport.2, htons_natCast] at hbound
          simp only [Sockets.grants, Bool.and_eq_true] at hbound
          exact ⟨n, hasked, hpos, hmax, hbound.1.2⟩

def complete (args : List CStr) : List Opt :=
  args.map .listen ++
    [.echo rootPrefix (some none), .tlsCertificate rootPrefix, .tlsKey rootPrefix]

theorem complete_ports (args : List CStr) : (complete args).filterMap Opt.port = args := by
  rw [complete, List.filterMap_append, List.filterMap_map]
  change args.filterMap some ++ [] = args
  rw [List.filterMap_some, List.append_nil]

theorem configure_valid (hvalid : ¬ ∃ s ∈ port, ¬ Numeric s.octets) (sockets : Sockets)
    (l : Listening) (opts : List Opt) (extra : Bool) (s : Serving) :
    configure (Startup.smooth.on sockets l) ⟨none, none, port⟩ opts extra s =
      (configureLoop ⟨s, 0, 0, none, none, [], 8⟩ opts).bind fun (rc, c) =>
        match rc with
        | some rc => .ok (rc, c.serving)
        | none => configureServer (Startup.smooth.on sockets l) extra c := by
  rw [← invalid_iff] at hvalid
  exact (if_neg Bool.false_ne_true).trans (if_neg hvalid)

/-- The port that `configure` binds to when it does with the given arguments of `-l`. -/
def boundPort (args : List CStr) : Int :=
  Configuration.portOrDefault
    ⟨⟨[], .zeroed⟩, 0, args.getLast?.elim 0 fun arg => (value arg.octets : Nat), none, none, [], 8⟩

theorem configure_complete {sockets : Sockets} (hvalid : ¬ ∃ s ∈ port, ¬ Numeric s.octets)
    (hargs : ∀ a ∈ args, Numeric a.octets ∧ ¬ Overlong a.octets)
    (hgrants : sockets.grants (htons (boundPort args)) = true) (l : Listening) :
    ∃ s', configure (Startup.smooth.on sockets l) ⟨none, none, port⟩ (complete args) false
      ⟨[], .zeroed⟩ = .ok (0, s') := by
  rw [← bind_on .smooth sockets l] at hgrants
  rw [configure_valid hvalid, complete, configureLoop_listens hargs]
  change ∃ s', (if !(Startup.smooth.on sockets l).bind (boundPort args) then _ else _) = _
  rw [hgrants]
  exact ⟨_, rfl⟩

theorem not_overlong_of_listens (h : ListensAsAsked port args)
    (hvalid : ¬ ∃ s ∈ port, ¬ Numeric s.octets) (he : args = front ++ arg :: rest)
    (hfront : ∀ a ∈ front, Numeric a.octets) : ¬ Overlong arg.octets := by
  intro hlong
  have hrun := (h .smooth ⟨true, true, fun _ => true, true⟩ ⟨.empty, -1⟩ ⟨none, none, port⟩
    (complete args) false ⟨[], .zeroed⟩ rfl (complete_ports args)).1
  apply hrun
  rw [configure_valid hvalid, complete, he, configureLoop_overflow hfront hlong]
  rfl

theorem sound_of_listensAsAsked (h : ListensAsAsked port args) : SoundPorts port args := by
  by_cases hvalid : ∃ s ∈ port, ¬ Numeric s.octets
  · exact .inl hvalid
  refine .inr ⟨fun front arg rest => not_overlong_of_listens h hvalid, ?_⟩
  by_cases hnumeric : ∃ arg ∈ args, ¬ Numeric arg.octets
  · exact .inl hnumeric
  have hargs : ∀ a ∈ args, Numeric a.octets ∧ ¬ Overlong a.octets := by
    intro a ha
    have hall : ∀ b ∈ args, Numeric b.octets := fun b hb =>
      Decidable.not_not.1 fun hn => hnumeric ⟨b, hb, hn⟩
    obtain ⟨front, rest, he⟩ := List.append_of_mem ha
    refine ⟨hall a ha, not_overlong_of_listens h hvalid he fun b hb => hall b ?_⟩
    rw [he]
    exact List.mem_append_left _ hb
  -- the only port that can be had is the one `configure` asks for
  have hgrants : (⟨true, true, fun p => p == htons (boundPort args), true⟩ : Sockets).grants
      (htons (boundPort args)) = true := by
    simp [Sockets.grants]
  obtain ⟨s', hrun⟩ := configure_complete hvalid hargs hgrants ⟨.empty, -1⟩
  obtain ⟨n, hasked, hpos, hmax, hbound⟩ := (h _ _ _ _ _ _ _ rfl (complete_ports args)).2 s' hrun
  refine .inr ⟨n, hasked, hpos, hmax, fun hnil => ?_⟩
  have hport : UInt16.ofNat n = htons (boundPort args) := eq_of_beq hbound
  rw [hnil] at hport
  have hn := congrArg UInt16.toNat hport
  rw [UInt16.toNat_ofNat_of_lt' (by simpa using Nat.lt_succ_of_le hmax)] at hn
  exact hn

/-- What `GEMINON_PORT` and the arguments of `-l` have to be like for the right port to be bound. -/
theorem listensAsAsked_iff (port : Option CStr) (args : List CStr) :
    ListensAsAsked port args ↔ SoundPorts port args :=
  ⟨sound_of_listensAsAsked, listensAsAsked_of_sound⟩

def sevenThousand : CStr := ⟨[55, 48, 48, 48], by decide⟩

/-- Nothing is made of the digits of `GEMINON_PORT`: the default port is bound. -/
theorem not_listensAsAsked_environment : ¬ ListensAsAsked (some sevenThousand) [] := by
  intro hlistens
  have hnumeric : Numeric sevenThousand.octets := by decide
  obtain ⟨s, hs, hbad⟩ | ⟨_, hfound⟩ := sound_of_listensAsAsked hlistens
  · cases hs
    exact hbad hnumeric
  · obtain ⟨arg, harg, _⟩ | ⟨n, hasked, _, _, hdefault⟩ := hfound
    · cases harg
    · obtain ⟨_, hvalue⟩ : Numeric sevenThousand.octets ∧ value sevenThousand.octets = n := hasked
      rw [hdefault rfl] at hvalue
      exact absurd hvalue (by decide)

end Geminon
