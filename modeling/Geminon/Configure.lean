import Geminon.Dispatch
import Geminon.Separated
import Geminon.Location
import Geminon.Fs
import Mathlib.Data.List.Forall2

namespace Geminon
open Memory Separated LinkedList Decimal
set_option autoImplicit true

abbrev comma : UInt8 := 44

def splitAll (s : CStr) (c : UInt8) : List CStr :=
  (s.octets.splitOn c).attach.map fun part => ⟨part.1, fun h =>
    s.noNul (splitOn_subset part.2 h)⟩

/-- An option's argument with a prefix in front of its first colon, which may be missing. -/
def prefixed (optarg : CStr) : CStr × CStr :=
  let length := optarg.octets.idxOf colon
  if length < optarg.length then
    (⟨optarg.octets.take length, fun h => optarg.noNul (List.mem_of_mem_take h)⟩,
      optarg.drop (length + 1))
  else (rootPrefix, optarg)

/-- An option that `getopt_long` returns, with what becomes of the calls made for it: making a
store and loading a certificate into it, `signal`, `realloc` and the allocation of the handler or
of the URL. Nothing is done about an unknown option. -/
inductive Opt where
  | authn (optarg : CStr) (store : Bool) (loads : List Bool) (malloc : Option (Option Nat))
  | echo (optarg : CStr) (malloc : Option (Option Nat))
  | exec (optarg : CStr) (signal : Bool) (malloc : Option (Option Nat))
  | static (optarg : CStr) (malloc : Option (Option Nat))
  | bind (optarg : CStr) (realloc : Bool) (malloc : UrlMalloc)
  | listen (optarg : CStr)
  | tlsCertificate (optarg : CStr)
  | tlsKey (optarg : CStr)
  | unknown

/-- The variables of `configure` that last from one option to the next, and its server. -/
structure Configuration where
  serving : Serving
  handlers : Nat
  port : Int
  cert : Option CStr
  key : Option CStr
  vhosts : List (Sigma GeminiUrl)
  cap : Nat

/-- The loop over the files of a store; it stops at the first that cannot be loaded. -/
def loadCertFiles : List Bool → List CStr → Bool
  | _, [] => true
  | loads, _ :: files => loads.headD false && loadCertFiles loads.tail files

def configureAuthn (c : Configuration) (optarg : CStr) (store : Bool) (loads : List Bool)
    (malloc : Option (Option Nat)) : Except Fault (Option Int × Configuration) :=
  if !store then .ok (some 1, c)
  else
    let (pathPrefix, files) := prefixed optarg
    let files := splitAll files comma
    if !loadCertFiles loads files then .ok (some 1, c)
    else do
      let (rc, serving) ← geminiHandleAuthn malloc c.serving pathPrefix files
      .ok (if rc ≠ 0 then some 1 else none, { c with serving })

def configureEcho (c : Configuration) (optarg : CStr) (malloc : Option (Option Nat)) :
    Except Fault (Option Int × Configuration) := do
  let (rc, serving) ← geminiHandleFn malloc c.serving optarg .echo
  .ok (if rc ≠ 0 then some (-1) else none, { c with serving, handlers := c.handlers + 1 })

def configureExec (c : Configuration) (optarg : CStr) (signal : Bool)
    (malloc : Option (Option Nat)) : Except Fault (Option Int × Configuration) :=
  if !signal then .ok (some (-1), c)
  else do
    let (pathPrefix, root) := prefixed optarg
    let (_, serving) ← geminiHandleFn malloc c.serving pathPrefix (.cgi root)
    .ok (none, { c with serving, handlers := c.handlers + 1 })

def configureStatic (c : Configuration) (optarg : CStr) (malloc : Option (Option Nat)) :
    Except Fault (Option Int × Configuration) := do
  let (pathPrefix, root) := prefixed optarg
  let (_, serving) ← geminiHandleFs malloc c.serving pathPrefix root
  .ok (none, { c with serving, handlers := c.handlers + 1 })

/-- `vhosts[nvhosts] = gemini_parse_url(optarg)`, and what is made of the result -/
def addVhost (c : Configuration) (optarg : CStr) (malloc : UrlMalloc) :
    Except Fault (Option Int × Configuration) := do
  let url ← geminiParseUrl malloc optarg
  if c.cap ≤ c.vhosts.length then .error (.store c.vhosts.length)
  else
    match url with
    | none => .ok (some (-1), c)
    | some url => .ok (none, { c with vhosts := c.vhosts ++ [⟨_, url⟩] })

def configureBind (c : Configuration) (optarg : CStr) (realloc : Bool) (malloc : UrlMalloc) :
    Except Fault (Option Int × Configuration) :=
  if c.vhosts.length = c.cap then
    if !realloc then .ok (some (-1), c)
    else addVhost { c with cap := c.cap + 8 } optarg malloc
  else addVhost c optarg malloc

def portLoop (port : Int) : List UInt8 → Except Fault (Option Int)
  | [] => .ok (some port)
  | c :: s =>
    if ¬ IsDigit c then .ok none
    else do
      let port ← intAdd (port * 10) (digit c)
      portLoop port s

def configureListen (c : Configuration) (optarg : CStr) :
    Except Fault (Option Int × Configuration) := do
  match ← portLoop 0 optarg.octets with
  | none => .ok (some (-1), c)
  | some port => .ok (none, { c with port })

/-- What is done about one option; a result ends `configure`. -/
def configureOption (c : Configuration) : Opt → Except Fault (Option Int × Configuration)
  | .authn optarg store loads malloc => configureAuthn c optarg store loads malloc
  | .echo optarg malloc => configureEcho c optarg malloc
  | .exec optarg signal malloc => configureExec c optarg signal malloc
  | .static optarg malloc => configureStatic c optarg malloc
  | .bind optarg realloc malloc => configureBind c optarg realloc malloc
  | .listen optarg => configureListen c optarg
  | .tlsCertificate optarg => .ok (none, { c with cert := some optarg })
  | .tlsKey optarg => .ok (none, { c with key := some optarg })
  | .unknown => .ok (none, c)

def configureLoop (c : Configuration) : List Opt → Except Fault (Option Int × Configuration)
  | [] => .ok (none, c)
  | o :: opts => do
    let (rc, c) ← configureOption c o
    match rc with
    | some rc => .ok (some rc, c)
    | none => configureLoop c opts

structure Environment where
  certificate : Option CStr
  privateKey : Option CStr
  port : Option CStr

/-- What becomes of the calls of `configure` that are not made for one option. -/
structure Startup where
  calloc : Bool
  block : Bool
  node : Option (Option Nat)
  bind : Int → Bool
  tls : CStr → CStr → Bool

def Startup.smooth : Startup := ⟨true, true, some none, fun _ => true, fun _ _ => true⟩

def Configuration.portOrDefault (c : Configuration) : Int :=
  if c.port ≠ 0 then c.port else geminiDefaultPort

def configureVhosts (calls : Startup) (c : Configuration) : Except Fault (Int × Serving) :=
  if 0 < c.vhosts.length then geminiHandleVhosts calls.block calls.node c.serving c.vhosts
  else .ok (0, c.serving)

/-- The part of `configure` behind the options; `extra` is whether arguments are left over. -/
def configureServer (calls : Startup) (extra : Bool) (c : Configuration) :
    Except Fault (Int × Serving) :=
  if extra then .ok (-1, c.serving)
  else
    match c.cert, c.key with
    | some cert, some key =>
      if c.handlers = 0 then .ok (-1, c.serving)
      else do
        let (rc, serving) ← configureVhosts calls c
        if rc ≠ 0 then .ok (-1, serving)
        else if !calls.bind c.portOrDefault then .ok (-1, serving)
        else if !calls.tls cert key then .ok (-1, serving)
        else .ok (0, serving)
    | _, _ => .ok (-1, c.serving)

def configure (calls : Startup) (env : Environment) (opts : List Opt) (extra : Bool)
    (s : Serving) : Except Fault (Int × Serving) :=
  if !calls.calloc then .ok (-1, s)
  else if env.port.any fun port => !port.octets.all fun c => IsDigit c then .ok (-1, s)
  else do
    let (rc, c) ← configureLoop ⟨s, 0, 0, env.certificate, env.privateKey, [], 8⟩ opts
    match rc with
    | some rc => .ok (rc, c.serving)
    | none => configureServer calls extra c

def Opt.registration : Opt → Option Registration
  | .authn optarg _ _ malloc =>
    some (.authn malloc (prefixed optarg).1 (splitAll (prefixed optarg).2 comma))
  | .echo optarg malloc => some (.fn malloc optarg .echo)
  | .exec optarg _ malloc => some (.fn malloc (prefixed optarg).1 (.cgi (prefixed optarg).2))
  | .static optarg malloc => some (.fs malloc (prefixed optarg).1 (prefixed optarg).2)
  | _ => none

def Opt.url : Opt → Option CStr
  | .bind optarg _ _ => some optarg
  | _ => none

def MadeOf (url : Sigma GeminiUrl) (s : CStr) : Prop :=
  ∃ loc : Location, s.octets = loc.text ∧ url.2.Denotes loc

/-- What the options have made of a configuration once none of them has ended it. -/
structure Configured (c : Configuration) (opts : List Opt) (c' : Configuration) : Prop where
  register : register c.serving (opts.filterMap Opt.registration) = .ok c'.serving
  vhosts : ∃ urls, c'.vhosts = c.vhosts ++ urls ∧
    List.Forall₂ MadeOf urls (opts.filterMap Opt.url)

theorem Configured.none (hreg : o.registration = none) (hurl : o.url = none)
    (hserving : c'.serving = c.serving) (hvhosts : c'.vhosts = c.vhosts) :
    Configured c [o] c' where
  register := by
    rw [List.filterMap_cons_none hreg, hserving]
    rfl
  vhosts := by
    refine ⟨[], by rw [hvhosts, List.append_nil], ?_⟩
    rw [List.filterMap_cons_none hurl]
    exact .nil

theorem Configured.handler (hreg : o.registration = some reg) (hurl : o.url = .none)
    (hrun : reg.run c.serving = .ok (rc, c'.serving)) (hvhosts : c'.vhosts = c.vhosts) :
    Configured c [o] c' where
  register := by
    rw [List.filterMap_cons_some hreg, List.filterMap_nil, Geminon.register, hrun]
    rfl
  vhosts := by
    refine ⟨[], by rw [hvhosts, List.append_nil], ?_⟩
    rw [List.filterMap_cons_none hurl]
    exact .nil

/-- What is known of a part of `configure` that returned: a result is an error. -/
def Stepped (c : Configuration) (opts : List Opt) : Option Int × Configuration → Prop
  | (some rc, _) => rc ≠ 0
  | (.none, c') => Configured c opts c'

theorem addVhost_spec (h : addVhost c₁ optarg malloc = .ok r)
    (hserving : c₁.serving = c.serving) (hvhosts : c₁.vhosts = c.vhosts) :
    Stepped c [.bind optarg realloc malloc] r := by
  obtain ⟨url, hparse, h⟩ := bind_eq_ok h
  split at h
  · cases h
  · cases url with
    | none =>
      cases h
      exact (by decide : (-1 : Int) ≠ 0)
    | some url =>
      cases h
      refine ⟨?_, _, congrArg (· ++ _) hvhosts, .cons (geminiParseUrl_denotes hparse) .nil⟩
      dsimp only
      rw [hserving]
      rfl

theorem configureOption_spec (h : configureOption c o = .ok r) : Stepped c [o] r := by
  have hone : (1 : Int) ≠ 0 := by decide
  have hminus : (-1 : Int) ≠ 0 := by decide
  cases o with
  | authn optarg store loads malloc =>
    simp only [configureOption, configureAuthn] at h
    split at h
    · cases h
      exact hone
    split at h
    · cases h
      exact hone
    · obtain ⟨⟨rc, serving⟩, hrun, h⟩ := bind_eq_ok h
      rw [← Except.ok.inj h]
      split
      · exact hone
      · exact .handler rfl rfl hrun rfl
  | echo optarg malloc =>
    obtain ⟨⟨rc, serving⟩, hrun, h⟩ := bind_eq_ok h
    rw [← Except.ok.inj h]
    split
    · exact hminus
    · exact .handler rfl rfl hrun rfl
  | exec optarg signal malloc =>
    simp only [configureOption, configureExec] at h
    split at h
    · cases h
      exact hminus
    · obtain ⟨⟨rc, serving⟩, hrun, h⟩ := bind_eq_ok h
      cases h
      exact .handler rfl rfl hrun rfl
  | static optarg malloc =>
    obtain ⟨⟨rc, serving⟩, hrun, h⟩ := bind_eq_ok h
    cases h
    exact .handler rfl rfl hrun rfl
  | bind optarg realloc malloc =>
    simp only [configureOption, configureBind] at h
    split at h
    · split at h
      · cases h
        exact hminus
      · exact addVhost_spec h rfl rfl
    · exact addVhost_spec h rfl rfl
  | listen optarg =>
    obtain ⟨port, _, h⟩ := bind_eq_ok h
    cases port with
    | none =>
      cases h
      exact hminus
    | some port =>
      cases h
      exact .none rfl rfl rfl rfl
  | tlsCertificate optarg =>
    cases h
    exact .none rfl rfl rfl rfl
  | tlsKey optarg =>
    cases h
    exact .none rfl rfl rfl rfl
  | unknown =>
    cases h
    exact .none rfl rfl rfl rfl

theorem register_append (h : register s regs = .ok s') (regs' : List Registration) :
    register s (regs ++ regs') = register s' regs' := by
  induction regs generalizing s with
  | nil =>
    cases h
    rfl
  | cons reg regs ih =>
    obtain ⟨⟨rc, s₁⟩, hrun, h⟩ := bind_eq_ok h
    rw [List.cons_append, Geminon.register, hrun]
    exact ih h

theorem Configured.refl (c : Configuration) : Configured c [] c :=
  ⟨rfl, [], by rw [List.append_nil], .nil⟩

theorem Configured.trans (h : Configured c opts c₁) (h' : Configured c₁ opts' c') :
    Configured c (opts ++ opts') c' where
  register := by
    rw [List.filterMap_append, register_append h.register]
    exact h'.register
  vhosts := by
    obtain ⟨urls, hvhosts, hmade⟩ := h.vhosts
    obtain ⟨urls', hvhosts', hmade'⟩ := h'.vhosts
    refine ⟨urls ++ urls', by rw [hvhosts', hvhosts, List.append_assoc], ?_⟩
    rw [List.filterMap_append]
    exact List.rel_append hmade hmade'

theorem configureLoop_spec (h : configureLoop c opts = .ok r) : Stepped c opts r := by
  induction opts generalizing c with
  | nil =>
    cases h
    exact .refl _
  | cons o opts ih =>
    obtain ⟨⟨rc, c₁⟩, hstep, h⟩ := bind_eq_ok h
    have hfirst := configureOption_spec hstep
    cases rc with
    | some rc =>
      cases h
      exact hfirst
    | none =>
      have hrest := ih h
      obtain ⟨rc', c'⟩ := r
      cases rc' with
      | some rc' => exact hrest
      | none => exact hfirst.trans hrest

theorem geminiHandleVhosts_made (h : geminiHandleVhosts block node s urls = .ok (0, s')) :
    ∃ next, block = true ∧ node = some next := by
  cases block with
  | false => cases h
  | true =>
    cases node with
    | none => cases h
    | some next => exact ⟨next, rfl, rfl⟩

theorem configureServer_inv (h : configureServer calls extra c = .ok (0, s)) :
    extra = false ∧ c.handlers ≠ 0 ∧ configureVhosts calls c = .ok (0, s) ∧
      calls.bind c.portOrDefault = true ∧
      ∃ cert key, c.cert = some cert ∧ c.key = some key ∧ calls.tls cert key = true := by
  unfold configureServer at h
  split at h
  · cases h
  rename_i hextra
  split at h
  · rename_i cert key hcert hkey
    split at h
    · cases h
    rename_i hhandlers
    obtain ⟨⟨rc, serving⟩, hvhosts, h⟩ := bind_eq_ok h
    dsimp only at h
    split at h
    · cases h
    rename_i hrc
    split at h
    · cases h
    rename_i hbind
    split at h
    · cases h
    rename_i htls
    cases h
    rw [not_not.1 hrc] at hvhosts
    exact ⟨by simpa using hextra, hhandlers, hvhosts, by simpa using hbind, cert, key, hcert, hkey,
      by simpa using htls⟩
  · cases h

theorem configureServer_accepted {c : Configuration}
    (h : configureServer calls extra c = .ok (0, s)) (hvhosts : c.vhosts ≠ []) :
    ∃ next, register c.serving [.vhosts true (some next) c.vhosts] = .ok s := by
  obtain ⟨_, _, hrun, _⟩ := configureServer_inv h
  have hpos : 0 < c.vhosts.length := List.length_pos_iff.2 hvhosts
  rw [configureVhosts, if_pos hpos] at hrun
  obtain ⟨next, hblock, hnode⟩ := geminiHandleVhosts_made hrun
  rw [hblock, hnode] at hrun
  refine ⟨next, ?_⟩
  rw [Geminon.register, Registration.run, hrun]
  rfl

theorem registered_entries (h : handled regs = []) (nodes : List Entry) :
    (registered nodes regs).map Prod.snd = regs.filterMap Registration.made := by
  induction regs generalizing nodes with
  | nil => rfl
  | cons reg regs ih =>
    have hne : ∀ addr, reg ≠ .handle addr := by
      intro addr he
      rw [he] at h
      cases h
    have hrest : handled regs = [] := by
      cases reg with
      | handle addr => exact absurd rfl (hne addr)
      | _ => exact h
    cases hmade : reg.made with
    | none => rw [registered_not_made hmade hne, List.filterMap_cons_none hmade, ih hrest]
    | some entry =>
      rw [registered_made hmade, List.filterMap_cons_some hmade, List.map_cons, ih hrest]

def Opt.entry (o : Opt) : Option Entry := o.registration.bind Registration.made

theorem handled_registrations (opts : List Opt) :
    handled (opts.filterMap Opt.registration) = [] := by
  unfold handled
  rw [List.filterMap_filterMap]
  apply List.filterMap_eq_nil_iff.2
  intro o _
  cases o <;> rfl

/-- The handlers of an accepted command line with URLs. -/
theorem configure_holds (h : configure calls env opts extra ⟨[], .zeroed⟩ = .ok (0, s))
    (hbind : opts.filterMap Opt.url ≠ []) :
    ∃ entries urls, Holds s entries ∧
      entries.map Prod.snd = opts.filterMap Opt.entry ++ [(rootPrefix, .vhosts urls)] ∧
      List.Forall₂ MadeOf urls (opts.filterMap Opt.url) := by
  unfold configure at h
  split at h
  · cases h
  split at h
  · cases h
  obtain ⟨⟨rc, c⟩, hloop, h⟩ := bind_eq_ok h
  have hc := configureLoop_spec hloop
  cases rc with
  | some rc =>
    cases h
    exact absurd rfl hc
  | none =>
    obtain ⟨urls, hvhosts, hmade⟩ := hc.vhosts
    rw [List.nil_append] at hvhosts
    have hne : c.vhosts ≠ [] := by
      rw [hvhosts]
      intro hnil
      rw [hnil, List.forall₂_nil_left_iff] at hmade
      exact hbind hmade
    obtain ⟨next, hlast⟩ := configureServer_accepted h hne
    rw [← register_append hc.register] at hlast
    have hhandled : handled (opts.filterMap Opt.registration ++
        [.vhosts true (some next) c.vhosts]) = [] := by
      rw [handled, List.filterMap_append]
      exact List.append_eq_nil_iff.2 ⟨handled_registrations opts, rfl⟩
    obtain ⟨s', hs', hholds⟩ := register_holds (Holds.zeroed []) (hhandled ▸ List.nodup_nil)
      (by rw [hhandled]; exact fun _ ha => absurd ha List.not_mem_nil)
    rw [hlast] at hs'
    cases hs'
    refine ⟨_, urls, hholds, ?_, hmade⟩
    rw [List.nil_append, registered_entries hhandled, List.filterMap_append, hvhosts,
      List.filterMap_filterMap]
    rfl

end Geminon
