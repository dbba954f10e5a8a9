import Geminon.Configure

namespace Geminon
open Memory Decimal
set_option autoImplicit true

def Opt.port : Opt → Option CStr
  | .listen optarg => some optarg
  | _ => none

def Numeric (octets : List UInt8) : Prop := ∀ c ∈ octets, IsDigit c

instance : Decidable (Numeric octets) := List.decidableBAll IsDigit octets

/-- The digits that a string begins with denote more than an `int` holds. -/
def Overlong (octets : List UInt8) : Prop := intMax < value (octets.takeWhile fun c => IsDigit c)

instance : Decidable (Overlong octets) := inferInstanceAs (Decidable (_ < _))

theorem portLoop_spec (hseen : value seen ≤ intMax) (octets : List UInt8) :
    portLoop (value seen) octets =
      if intMax < value (seen ++ octets.takeWhile fun c => IsDigit c) then .error .overflow
      else if Numeric octets then .ok (some (value (seen ++ octets)))
      else .ok none := by
  induction octets generalizing seen with
  | nil =>
    have hall : Numeric [] := fun _ hc => absurd hc List.not_mem_nil
    rw [List.takeWhile_nil, List.append_nil, if_neg (Nat.not_lt.2 hseen), if_pos hall]
    rfl
  | cons c octets ih =>
    rw [portLoop]
    by_cases hc : IsDigit c
    · have htake : (c :: octets).takeWhile (fun c => IsDigit c) =
          c :: octets.takeWhile fun c => IsDigit c :=
        List.takeWhile_cons_of_pos (decide_eq_true hc)
      have hall : Numeric (c :: octets) ↔ Numeric octets := by
        rw [Numeric, List.forall_mem_cons, and_iff_right hc]
        rfl
      have hnext : intAdd (value seen * 10) (digit c) =
          if intMax < value (seen ++ [c]) then .error .overflow
          else .ok (value (seen ++ [c]) : Nat) := by
        rw [value_concat]
        split
        · exact intAdd_overflow ‹_›
        · exact intAdd_nat (Nat.not_lt.1 ‹_›)
      rw [if_neg (not_not.2 hc), htake, hnext, List.append_cons seen c octets,
        List.append_cons seen c (octets.takeWhile _), if_congr hall rfl rfl]
      by_cases hlong : intMax < value (seen ++ [c])
      · rw [if_pos hlong, if_pos (hlong.trans_le (value_le_append _ _))]
        rfl
      · rw [if_neg hlong]
        exact ih (Nat.not_lt.1 hlong)
    · have htake : (c :: octets).takeWhile (fun c => IsDigit c) = [] :=
        List.takeWhile_cons_of_neg (by simpa using hc)
      have hall : ¬ Numeric (c :: octets) := fun h => hc (h c List.mem_cons_self)
      rw [if_pos hc, htake, List.append_nil, if_neg (Nat.not_lt.2 hseen), if_neg hall]

theorem configureListen_eq (c : Configuration) (optarg : CStr) :
    configureListen c optarg =
      if Overlong optarg.octets then .error .overflow
      else if Numeric optarg.octets then .ok (none, { c with port := (value optarg.octets : Nat) })
      else .ok (some (-1), c) := by
  have hnone : value [] ≤ intMax := Nat.zero_le _
  have hloop := portLoop_spec hnone optarg.octets
  rw [value_nil, List.nil_append, List.nil_append] at hloop
  change portLoop 0 optarg.octets = _ at hloop
  unfold configureListen
  by_cases hlong : Overlong optarg.octets
  · rw [if_pos hlong, hloop.trans (if_pos hlong)]
    rfl
  · rw [if_neg hlong, hloop.trans (if_neg hlong)]
    by_cases hnumeric : Numeric optarg.octets
    · rw [if_pos hnumeric, if_pos hnumeric]
      rfl
    · rw [if_neg hnumeric, if_neg hnumeric]
      rfl

theorem configureLoop_listen (hlong : ¬ Overlong arg.octets) (hnumeric : Numeric arg.octets)
    (c : Configuration) (opts : List Opt) :
    configureLoop c (.listen arg :: opts) =
      configureLoop { c with port := (value arg.octets : Nat) } opts := by
  rw [configureLoop]
  change (configureListen c arg).bind _ = _
  rw [configureListen_eq, if_neg hlong, if_pos hnumeric]
  rfl

theorem configureLoop_overflow (hfront : ∀ a ∈ front, Numeric a.octets)
    (hlong : Overlong arg.octets) (c : Configuration) (rest : List CStr) (opts : List Opt) :
    configureLoop c ((front ++ arg :: rest).map .listen ++ opts) = .error .overflow := by
  have hstop (a : CStr) (c : Configuration) (opts : List Opt) (h : Overlong a.octets) :
      configureLoop c (.listen a :: opts) = .error .overflow := by
    rw [configureLoop]
    change (configureListen c a).bind _ = _
    rw [configureListen_eq, if_pos h]
    rfl
  induction front generalizing c with
  | nil => exact hstop arg c _ hlong
  | cons a front ih =>
    by_cases ha : Overlong a.octets
    · exact hstop a c _ ha
    · rw [List.cons_append, List.map_cons, List.cons_append,
        configureLoop_listen ha (hfront a List.mem_cons_self)]
      exact ih (fun b hb => hfront b (List.mem_cons_of_mem a hb)) _

theorem configureLoop_listens {args : List CStr}
    (hargs : ∀ a ∈ args, Numeric a.octets ∧ ¬ Overlong a.octets) (c : Configuration)
    (opts : List Opt) :
    configureLoop c (args.map .listen ++ opts) =
      configureLoop { c with port := args.getLast?.elim c.port fun arg => (value arg.octets : Nat) }
        opts := by
  induction args generalizing c with
  | nil => rfl
  | cons a args ih =>
    obtain ⟨hnumeric, hlong⟩ := hargs a List.mem_cons_self
    rw [List.map_cons, List.cons_append, configureLoop_listen hlong hnumeric,
      ih fun b hb => hargs b (List.mem_cons_of_mem a hb), List.getLast?_cons]
    cases args.getLast? <;> rfl

theorem parseUrlLoop_noOverflow (url : GeminiUrl len) (src : List UInt8) :
    NoOverflow (geminiParseUrlLoop url 0 0 geminiDefaultPort src) := by
  have hsettles := parseUrlLoop_settles url 0 0 geminiDefaultPort src
  intro hoverflow
  rw [hoverflow] at hsettles
  obtain ⟨i, hstore⟩ := hsettles
  cases hstore

theorem geminiHandleFn_noOverflow (malloc : Option (Option Nat)) (s : Serving)
    (pathPrefix : CStr) (fn : Handler) : NoOverflow (geminiHandleFn malloc s pathPrefix fn) := by
  have hsetNext (mem : List GeminiHandler) (handler : Nat) (next : Option Nat) :
      NoOverflow (setNext mem handler next) := by
    unfold setNext
    split <;> exact nofun
  unfold geminiHandleFn
  split
  · exact .ok _
  · apply NoOverflow.bind (hsetNext _ _ _)
    intro mem
    dsimp only
    split
    · exact .bind (.ok _) fun _ => .ok _
    · exact .bind (hsetNext _ _ _) fun _ => .ok _

theorem addVhost_noOverflow (c : Configuration) (optarg : CStr) (malloc : UrlMalloc) :
    NoOverflow (addVhost c optarg malloc) := by
  have hparse : NoOverflow (geminiParseUrl malloc optarg) := by
    unfold geminiParseUrl geminiNewUrl
    cases malloc (urlLen optarg) with
    | none => exact .ok _
    | some url =>
      exact .bind (.map (parseUrlLoop_noOverflow _ _) _) fun _ => .ok _
  apply NoOverflow.bind hparse
  intro url
  split
  · exact nofun
  · split <;> exact .ok _

/-- What is known of a part of `configure` that returned or failed, and was given some ports. -/
def PortStep (c : Configuration) (args : List CStr) :
    Except Fault (Option Int × Configuration) → Prop
  | .error fault => fault = .overflow →
      ∃ front arg rest, args = front ++ arg :: rest ∧ (∀ a ∈ front, Numeric a.octets) ∧
        Overlong arg.octets
  | .ok (some _, _) => True
  | .ok (none, c') => (∀ a ∈ args, Numeric a.octets) ∧
      c'.port = args.getLast?.elim c.port fun arg => (value arg.octets : Nat)

theorem PortStep.other {r : Except Fault (Option Int × Configuration)} (h : NoOverflow r)
    (hport : ∀ c', r = .ok (none, c') → c'.port = c.port) : PortStep c [] r := by
  match r, h, hport with
  | .error fault, h, _ => exact fun he => absurd (congrArg Except.error he) h
  | .ok (some _, _), _, _ => trivial
  | .ok (none, c'), _, hport => exact ⟨fun _ ha => absurd ha List.not_mem_nil, hport c' rfl⟩

theorem PortStep.andThen {r : Except Fault (Option Int × Configuration)}
    (h : PortStep c args (.ok (none, c₁))) (hr : PortStep c₁ args' r) :
    PortStep c (args ++ args') r := by
  obtain ⟨hnumeric, hport⟩ := h
  match r, hr with
  | .error fault, hr =>
    intro hfault
    obtain ⟨front, arg, rest, rfl, hfront, hlong⟩ := hr hfault
    refine ⟨args ++ front, arg, rest, by rw [List.append_assoc], fun a ha => ?_, hlong⟩
    exact (List.mem_append.1 ha).elim (hnumeric a) (hfront a)
  | .ok (some _, _), _ => trivial
  | .ok (none, c'), hr =>
    refine ⟨fun a ha => (List.mem_append.1 ha).elim (hnumeric a) (hr.1 a), ?_⟩
    rw [hr.2, hport, List.getLast?_append]
    cases args'.getLast? <;> rfl

theorem PortStep.bind {x : Except Fault α} {f : α → Except Fault (Option Int × Configuration)}
    (hx : NoOverflow x) (hf : ∀ a, ∃ rc c', f a = .ok (rc, c') ∧ c'.port = c.port) :
    PortStep c [] (x.bind f) := by
  refine .other (.bind hx fun a => ?_) fun c' h => ?_
  · obtain ⟨rc, c', hok, _⟩ := hf a
    rw [hok]
    exact .ok _
  · obtain ⟨a, _, h⟩ := bind_eq_ok h
    obtain ⟨rc, c'', hok, hport⟩ := hf a
    rw [hok] at h
    cases h
    exact hport

theorem addVhost_port (h : addVhost c optarg malloc = .ok (rc, c')) : c'.port = c.port := by
  obtain ⟨url, _, h⟩ := bind_eq_ok h
  split at h
  · cases h
  · cases url with
    | none =>
      cases h
      rfl
    | some url =>
      cases h
      rfl

theorem configureOption_port (c : Configuration) (o : Opt) :
    PortStep c o.port.toList (configureOption c o) := by
  cases o with
  | authn optarg store loads malloc =>
    simp only [configureOption, configureAuthn]
    split
    · trivial
    split
    · trivial
    · exact .bind (geminiHandleFn_noOverflow _ _ _ _) fun _ => ⟨_, _, rfl, rfl⟩
  | echo optarg malloc =>
    exact .bind (geminiHandleFn_noOverflow _ _ _ _) fun _ => ⟨_, _, rfl, rfl⟩
  | exec optarg signal malloc =>
    simp only [configureOption, configureExec]
    split
    · trivial
    · exact .bind (geminiHandleFn_noOverflow _ _ _ _) fun _ => ⟨_, _, rfl, rfl⟩
  | static optarg malloc =>
    exact .bind (geminiHandleFn_noOverflow _ _ _ _) fun _ => ⟨_, _, rfl, rfl⟩
  | bind optarg realloc malloc =>
    have hvhost (c₁ : Configuration) (hport : c₁.port = c.port) :
        PortStep c [] (addVhost c₁ optarg malloc) :=
      .other (addVhost_noOverflow _ _ _) fun c' h => (addVhost_port h).trans hport
    simp only [configureOption, configureBind]
    split
    · split
      · trivial
      · exact hvhost _ rfl
    · exact hvhost c rfl
  | listen optarg =>
    change PortStep c [optarg] (configureListen c optarg)
    rw [configureListen_eq]
    split
    · exact fun _ => ⟨[], optarg, [], rfl, by simp, ‹_›⟩
    · split
      · exact ⟨by simpa, rfl⟩
      · trivial
  | tlsCertificate optarg => exact .other (.ok _) fun c' h => by cases h; rfl
  | tlsKey optarg => exact .other (.ok _) fun c' h => by cases h; rfl
  | unknown => exact .other (.ok _) fun c' h => by cases h; rfl

theorem configureLoop_port (c : Configuration) (opts : List Opt) :
    PortStep c (opts.filterMap Opt.port) (configureLoop c opts) := by
  induction opts generalizing c with
  | nil => exact ⟨fun _ ha => absurd ha List.not_mem_nil, rfl⟩
  | cons o opts ih =>
    have hfirst := configureOption_port c o
    have hargs : (o :: opts).filterMap Opt.port = o.port.toList ++ opts.filterMap Opt.port := by
      rw [List.filterMap_cons]
      cases o.port <;> rfl
    rw [configureLoop, hargs]
    cases hstep : configureOption c o with
    | error fault =>
      rw [hstep] at hfirst
      intro hfault
      obtain ⟨front, arg, rest, hport, hfront, hlong⟩ := hfirst hfault
      exact ⟨front, arg, rest ++ _, by rw [hport, List.append_assoc]; rfl, hfront, hlong⟩
    | ok r =>
      obtain ⟨rc, c₁⟩ := r
      rw [hstep] at hfirst
      cases rc with
      | some rc => trivial
      | none => exact hfirst.andThen (ih c₁)

theorem configureServer_noOverflow (calls : Startup) (extra : Bool) (c : Configuration) :
    NoOverflow (configureServer calls extra c) := by
  have hvhosts : NoOverflow (configureVhosts calls c) := by
    unfold configureVhosts geminiHandleVhosts
    split
    · split
      · exact .bind (geminiHandleFn_noOverflow _ _ _ _) fun _ => .ok _
      · exact .ok _
    · exact .ok _
  unfold configureServer
  split
  · exact .ok _
  split
  · split
    · exact .ok _
    · apply NoOverflow.bind hvhosts
      intro r
      obtain ⟨rc, serving⟩ := r
      dsimp only
      split
      · exact .ok _
      split
      · exact .ok _
      split <;> exact .ok _
  · exact .ok _

end Geminon
