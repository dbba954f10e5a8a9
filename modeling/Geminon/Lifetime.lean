import Geminon.Heaps
import Geminon.Server

namespace Geminon.OnHeap
open Memory Process Descriptors Heaps
set_option autoImplicit true

inductive Fn where
  | echo
  | cgi
  | fs
  | authn
  | vhosts
  | user (fn : Nat)
  deriving DecidableEq, Repr

/-- What the blocks hold that a server has to do with. -/
inductive Block where
  | handler (next pathPrefix : Option Nat) (fn : Fn) (data : Option Nat)
  | text (s : CStr)
  | vhosts (urls n : Nat)
  | urls (slots : List (Option Nat))
  | url (u : Sigma GeminiUrl)
  | store (store : X509Store)
  | other (tag : Nat)

/-- The pointers of a server; `ssl` is its TLS context. -/
structure GeminiServer where
  first : Option Nat
  last : Option Nat
  ssl : Option Nat
  deriving DecidableEq, Repr

/-- The outcomes of the allocations of one call; `stale` is what the node's `next` holds. -/
structure Allocs where
  node : Option Nat
  stale : Option Nat
  pathPrefix : Option Nat
  data : Option Nat

def setNext (handler : Nat) (next : Option Nat) : Proc (Heap Block) Unit := do
  match ← load handler with
  | .handler _ pathPrefix fn data => store handler (.handler next pathPrefix fn data)
  | _ => throw (.store handler)

def geminiHandle (server : GeminiServer) (handler : Nat) :
    Proc (Heap Block) (Int × GeminiServer) := do
  setNext handler none
  let server := if server.first.isNone then { server with first := some handler } else server
  match server.last with
  | none => pure ()
  | some last => setNext last (some handler)
  pure (0, { server with last := some handler })

def strdup (outcome : Option Nat) (s : CStr) : Proc (Heap Block) (Option Nat) :=
  malloc outcome (.text s)

def geminiHandleFn (allocs : Allocs) (server : GeminiServer) (pathPrefix : CStr) (fn : Fn)
    (data : Option Nat) : Proc (Heap Block) (Int × GeminiServer) := do
  match ← malloc allocs.node (.handler allocs.stale none fn data) with
  | none => pure (-1, server)
  | some handler =>
    let pathPrefix ← strdup allocs.pathPrefix pathPrefix
    store handler (.handler allocs.stale pathPrefix fn data)
    geminiHandle server handler

def geminiHandleFs (allocs : Allocs) (server : GeminiServer) (pathPrefix root : CStr) :
    Proc (Heap Block) (Int × GeminiServer) := do
  let root ← strdup allocs.data root
  geminiHandleFn allocs server pathPrefix .fs root

def geminiHandleAuthn (allocs : Allocs) (server : GeminiServer) (pathPrefix : CStr)
    (store : Option Nat) : Proc (Heap Block) (Int × GeminiServer) :=
  geminiHandleFn allocs server pathPrefix .authn store

def geminiHandleVhosts (allocs : Allocs) (server : GeminiServer) (urls n : Nat) :
    Proc (Heap Block) (Int × GeminiServer) := do
  match ← malloc allocs.data (.vhosts urls n) with
  | none => pure (-1, server)
  | some vhosts =>
    let (rc, server) ← geminiHandleFn allocs server rootPrefix .vhosts (some vhosts)
    if rc ≠ 0 then
      free vhosts
      pure (-1, server)
    else pure (0, server)

def freeUrls (urls i : Nat) : Nat → Proc (Heap Block) Unit
  | 0 => pure ()
  | k + 1 => do
    match ← load urls with
    | .urls slots =>
      match slots[i]? with
      | none => throw (.load i)
      | some url => freePtr url
    | _ => throw (.load urls)
    freeUrls urls (i + 1) k

def sVhostsFree (x : Nat) : Proc (Heap Block) Unit := do
  match ← load x with
  | .vhosts urls n =>
    freeUrls urls 0 n
    free urls
    free x
  | _ => throw (.load x)

/-- The data of a handler; a store has no other references, so that it is freed. -/
def freeData (fn : Fn) (data : Option Nat) : Proc (Heap Block) Unit :=
  if fn = .vhosts then
    match data with
    | none => throw .null
    | some x => sVhostsFree x
  else freePtr data

def closeHandlers : Nat → Option Nat → Proc (Heap Block) Unit
  | _, none => pure ()
  | 0, some _ => throw .endless
  | fuel + 1, some handler => do
    match ← load handler with
    | .handler next pathPrefix fn data =>
      freeData fn data
      freePtr pathPrefix
      free handler
      closeHandlers fuel next
    | _ => throw (.load handler)

/-- The TLS context has no other references; `fuel` is room for the handlers. -/
def geminiServerClose (fuel : Nat) (server : GeminiServer) : Proc (Heap Block) Unit := do
  freePtr server.ssl
  closeHandlers fuel server.first

def Block.unlinked : Block → Block
  | .handler _ pathPrefix fn data => .handler none pathPrefix fn data
  | b => b

/-- The blocks of a heap are still in use, and nothing about them is new but their links. -/
def Settled (h h' : Heap Block) : Prop :=
  ∀ a b, h.get a = some b → (h'.get a).map Block.unlinked = some b.unlinked

theorem Settled.of_same (hsame : ∀ a b, h.get a = some b → h'.get a = some b) : Settled h h' :=
  fun a b hb => by rw [hsame a b hb, Option.map_some]

theorem Settled.refl (h : Heap Block) : Settled h h := .of_same fun _ _ hb => hb

theorem Settled.trans (hs : Settled h h₁) (hs' : Settled h₁ h') : Settled h h' := by
  intro a b hb
  obtain ⟨b₁, hb₁, hunlinked⟩ := Option.map_eq_some_iff.1 (hs a b hb)
  rw [hs' a b₁ hb₁, hunlinked]

theorem Settled.alloc (ha : h.get a = none) (b : Block) : Settled h (h.set a (some b)) := by
  refine .of_same fun x c hc => ?_
  rw [FdTable.get_set_of_ne, hc]
  rintro rfl
  rw [ha] at hc
  cases hc

theorem Settled.relink (ha : h.get a = some (.handler next pathPrefix fn data))
    (next' : Option Nat) : Settled h (h.set a (some (.handler next' pathPrefix fn data))) := by
  intro x b hb
  by_cases hx : x = a
  · rw [hx, ha] at hb
    cases hb
    rw [hx, FdTable.get_set_self]
    rfl
  · rw [FdTable.get_set_of_ne _ _ hx, hb, Option.map_some]

theorem Settled.get (hs : Settled h h') (hb : h.get a = some b)
    (hlink : ∀ next pathPrefix fn data, b ≠ .handler next pathPrefix fn data) :
    h'.get a = some b := by
  obtain ⟨b', hb', hunlinked⟩ := Option.map_eq_some_iff.1 (hs a b hb)
  rw [hb']
  cases b with
  | handler next pathPrefix fn data => exact absurd rfl (hlink next pathPrefix fn data)
  | _ =>
    cases b' <;> cases hunlinked
    rfl

def readText (h : Heap Block) (p : Option Nat) : Option CStr :=
  match p.bind h.get with
  | some (.text s) => some s
  | _ => none

theorem readText_eq_some : readText h p = some s ↔ ∃ a, p = some a ∧ h.get a = some (.text s) := by
  unfold readText
  cases p with
  | none => simp
  | some a =>
    rw [Option.bind_some]
    split <;> simp_all

theorem Settled.readText (hs : Settled h h') (hr : readText h p = some s) :
    readText h' p = some s := by
  obtain ⟨a, rfl, ha⟩ := readText_eq_some.1 hr
  exact readText_eq_some.2 ⟨a, rfl, hs.get ha nofun⟩

/-- The data of a handler: its pointer and all blocks that belong to it. -/
inductive Data (h : Heap Block) : Fn → Option Nat → List Nat → Prop where
  | null : fn ≠ .vhosts → Data h fn none []
  | block : fn ≠ .vhosts → (h.get a).isSome → Data h fn (some a) [a]
  | vhosts : h.get x = some (.vhosts urls n) → h.get urls = some (.urls slots) →
      slots.take n = as.map some → as.length = n → (∀ a ∈ as, (h.get a).isSome) →
      Data h .vhosts (some x) (as ++ [urls, x])

/-- A handler in a heap: its fields but for the link, and the blocks of its data. -/
structure Node where
  addr : Nat
  pathPrefix : Option Nat
  fn : Fn
  data : Option Nat
  own : List Nat

/-- The blocks of a handler, in the order in which they are freed. -/
def Node.blocks (n : Node) : List Nat := n.own ++ (n.pathPrefix.toList ++ [n.addr])

structure Node.At (n : Node) (h : Heap Block) (next : Option Nat) : Prop where
  node : h.get n.addr = some (.handler next n.pathPrefix n.fn n.data)
  pathPrefix : ∀ p ∈ n.pathPrefix, (h.get p).isSome
  data : Data h n.fn n.data n.own

def Chain (h : Heap Block) : Option Nat → List Node → Prop
  | start, [] => start = none
  | start, n :: nodes => start = some n.addr ∧ ∃ next, n.At h next ∧ Chain h next nodes

def footprint (nodes : List Node) : List Nat := nodes.flatMap Node.blocks

theorem footprint_cons (n : Node) (nodes : List Node) :
    footprint (n :: nodes) = n.blocks ++ footprint nodes := List.flatMap_cons

theorem footprint_append (nodes nodes' : List Node) :
    footprint (nodes ++ nodes') = footprint nodes ++ footprint nodes' := List.flatMap_append

theorem footprint_singleton (n : Node) : footprint [n] = n.blocks := List.flatMap_singleton _ _

theorem Data.frame (hd : Data h fn data own) (hsame : ∀ a ∈ own, h'.get a = h.get a) :
    Data h' fn data own := by
  cases hd with
  | null hfn => exact .null hfn
  | block hfn hlive => exact .block hfn (by rwa [hsame _ List.mem_cons_self])
  | vhosts hx hurls hslots hlen hlive =>
    refine .vhosts (by rwa [hsame _ (by simp)]) (by rwa [hsame _ (by simp)]) hslots hlen ?_
    intro a ha
    rw [hsame a (List.mem_append_left _ ha)]
    exact hlive a ha

theorem Node.At.frame {n : Node} (hn : n.At h next) (hsame : ∀ a ∈ n.blocks, h'.get a = h.get a) :
    n.At h' next where
  node := by rw [hsame _ (by simp [Node.blocks]), hn.node]
  pathPrefix p hp := by
    rw [hsame p (by simp [Node.blocks, Option.mem_def.1 hp])]
    exact hn.pathPrefix p hp
  data := hn.data.frame fun a ha => hsame a (List.mem_append_left _ ha)

theorem Chain.frame {nodes : List Node} (hc : Chain h start nodes)
    (hsame : ∀ a ∈ footprint nodes, h'.get a = h.get a) : Chain h' start nodes := by
  induction nodes generalizing start with
  | nil => exact hc
  | cons n nodes ih =>
    obtain ⟨hstart, next, hn, hrest⟩ := hc
    refine ⟨hstart, next, hn.frame fun a ha => ?_, ih hrest fun a ha => ?_⟩
    · exact hsame a (footprint_cons n nodes ▸ List.mem_append_left _ ha)
    · exact hsame a (footprint_cons n nodes ▸ List.mem_append_right _ ha)

theorem freeUrls_outcome {h : Heap Block} (hurls : h.get urls = some (.urls slots))
    (hslots : (slots.drop i).take as.length = as.map some) (hnodup : as.Nodup) (hne : urls ∉ as)
    (hlive : ∀ a ∈ as, (h.get a).isSome) :
    Outcome (freeUrls urls i as.length) h (fun _ h' => h' = release h as) fun _ _ => False := by
  induction as generalizing h i with
  | nil => exact .pure rfl
  | cons a as ih =>
    obtain ⟨ha, hnodup⟩ := List.nodup_cons.1 hnodup
    rw [List.mem_cons, not_or] at hne
    cases hdrop : slots.drop i with
    | nil =>
      rw [hdrop] at hslots
      cases hslots
    | cons slot rest =>
      rw [hdrop, List.length_cons, List.take_succ_cons, List.map_cons] at hslots
      obtain ⟨rfl, hrest⟩ := List.cons.inj hslots
      have hslot : slots[i]? = some (some a) := by
        rw [← List.head?_drop, hdrop]
        rfl
      have hnext : slots.drop (i + 1) = rest := by
        rw [← List.tail_drop, hdrop]
        rfl
      rw [List.length_cons, freeUrls]
      apply Outcome.bind
      apply load_outcome hurls
      dsimp only
      rw [hslot]
      apply Outcome.bind
      apply free_outcome (hlive a List.mem_cons_self)
      have hother (a' : Nat) (hne' : a' ≠ a) : (h.close a).get a' = h.get a' :=
        FdTable.get_set_of_ne _ _ hne'
      refine ih ?_ ?_ hnodup hne.2 ?_
      · rw [hother urls hne.1, hurls]
      · rw [hnext, hrest]
      · intro a' ha'
        rw [hother a' fun he => ha (he ▸ ha')]
        exact hlive a' (List.mem_cons_of_mem _ ha')

theorem freeData_outcome {h : Heap Block} (hd : Data h fn data own) (hnodup : own.Nodup) :
    Outcome (freeData fn data) h (fun _ h' => h' = release h own) fun _ _ => False := by
  unfold freeData
  cases hd with
  | null hfn =>
    rw [if_neg hfn]
    exact .pure rfl
  | block hfn hlive =>
    rw [if_neg hfn]
    exact free_outcome hlive rfl
  | @vhosts x urls n slots as hx hurls hslots hlen hlive =>
    rw [if_pos rfl]
    rw [List.nodup_append] at hnodup
    obtain ⟨has, hpair, hapart⟩ := hnodup
    have hurls' : urls ∉ as := fun hmem => hapart _ hmem _ (by simp) rfl
    have hx' : x ∉ as := fun hmem => hapart _ hmem _ (by simp) rfl
    have hne : x ≠ urls := by
      intro he
      rw [he] at hpair
      exact absurd hpair (by simp)
    unfold sVhostsFree
    apply Outcome.bind
    apply load_outcome hx
    dsimp only
    subst hlen
    apply Outcome.andThen (freeUrls_outcome hurls hslots has hurls' hlive)
    intro _ h₁ hh₁
    subst hh₁
    apply Outcome.bind
    apply free_outcome (by rw [get_release_of_notMem h hurls', hurls]; rfl)
    apply free_outcome
    · rw [FdTable.close, FdTable.get_set_of_ne _ _ hne, get_release_of_notMem h hx', hx]
      rfl
    · rw [release_append]
      rfl

/-- Closing goes over the handlers of a server and frees each of their blocks once. -/
theorem closeHandlers_outcome {h : Heap Block} {nodes : List Node} (hc : Chain h start nodes)
    (hnodup : (footprint nodes).Nodup) (hfuel : nodes.length ≤ fuel) :
    Outcome (closeHandlers fuel start) h (fun _ h' => h' = release h (footprint nodes))
      fun _ _ => False := by
  induction nodes generalizing h start fuel with
  | nil =>
    rw [Chain] at hc
    rw [hc, closeHandlers]
    exact .pure rfl
  | cons n nodes ih =>
    obtain ⟨rfl, next, hn, hrest⟩ := hc
    obtain ⟨fuel, rfl⟩ := Nat.exists_eq_succ_of_ne_zero (Nat.ne_zero_of_lt hfuel)
    rw [footprint_cons, List.nodup_append] at hnodup
    obtain ⟨hblocks, hrest', hapart⟩ := hnodup
    rw [Node.blocks, List.nodup_append] at hblocks
    obtain ⟨hown, hnode, howns⟩ := hblocks
    rw [List.nodup_append] at hnode
    obtain ⟨-, -, hpre⟩ := hnode
    have haddr : n.addr ∉ n.own := fun hmem => howns _ hmem _ (by simp) rfl
    rw [closeHandlers]
    apply Outcome.bind
    apply load_outcome hn.node
    dsimp only
    apply Outcome.andThen (freeData_outcome hn.data hown)
    intro _ h₁ hh₁
    subst hh₁
    have hlive : ∀ p ∈ n.pathPrefix, ((release h n.own).get p).isSome := by
      intro p hp
      rw [get_release_of_notMem h fun hmem => howns _ hmem _ (by simp [Option.mem_def.1 hp]) rfl]
      exact hn.pathPrefix p hp
    apply Outcome.andThen (freePtr_outcome hlive)
    intro _ h₂ hh₂
    subst hh₂
    have haddr' : n.addr ∉ n.pathPrefix.toList := fun hmem => hpre _ hmem _ (by simp) rfl
    apply Outcome.bind
    apply free_outcome
    · rw [get_release_of_notMem _ haddr', get_release_of_notMem h haddr, hn.node]
      rfl
    have hfreed : (release (release h n.own) n.pathPrefix.toList).close n.addr =
        release h n.blocks := by
      rw [Node.blocks, release_append, release_append]
      rfl
    rw [hfreed]
    have hframe : Chain (release h n.blocks) next nodes := by
      refine hrest.frame fun a ha => ?_
      exact get_release_of_notMem h fun hmem => hapart _ hmem _ ha rfl
    apply (ih hframe hrest' (Nat.le_of_succ_le_succ hfuel)).imp
    intro _ h' hh'
    rw [hh', footprint_cons, release_append]

theorem Data.live (hd : Data h fn data own) : ∀ a ∈ own, (h.get a).isSome := by
  cases hd with
  | null hfn => exact List.forall_mem_nil _
  | block hfn hlive => exact List.forall_mem_singleton.2 hlive
  | vhosts hx hurls hslots hlen hlive =>
    intro a ha
    rw [List.mem_append, List.mem_pair] at ha
    obtain ha | rfl | rfl := ha
    · exact hlive a ha
    · rw [hurls]
      rfl
    · rw [hx]
      rfl

theorem Node.At.live {n : Node} (hn : n.At h next) : ∀ a ∈ n.blocks, (h.get a).isSome := by
  intro a ha
  rw [Node.blocks, List.mem_append, List.mem_append, List.mem_singleton] at ha
  obtain ha | ha | rfl := ha
  · exact hn.data.live a ha
  · exact hn.pathPrefix a (Option.mem_toList.1 ha)
  · rw [hn.node]
    rfl

theorem Chain.live {nodes : List Node} (hc : Chain h start nodes) :
    ∀ a ∈ footprint nodes, (h.get a).isSome := by
  induction nodes generalizing start with
  | nil => exact List.forall_mem_nil _
  | cons n nodes ih =>
    obtain ⟨_, next, hn, hrest⟩ := hc
    intro a ha
    rw [footprint_cons, List.mem_append] at ha
    exact ha.elim (hn.live a) (ih hrest a)

theorem Node.At.relink {n : Node} (hn : n.At h next) (hnodup : n.blocks.Nodup)
    (next' : Option Nat) :
    n.At (h.set n.addr (some (.handler next' n.pathPrefix n.fn n.data))) next' := by
  rw [Node.blocks, List.nodup_append] at hnodup
  obtain ⟨-, hnode, howns⟩ := hnodup
  rw [List.nodup_append] at hnode
  obtain ⟨-, -, hpre⟩ := hnode
  refine ⟨FdTable.get_set_self _ _ _, fun p hp => ?_, hn.data.frame fun a ha => ?_⟩
  · rw [FdTable.get_set_of_ne _ _ (hpre p (Option.mem_toList.2 hp) _ (by simp))]
    exact hn.pathPrefix p hp
  · exact FdTable.get_set_of_ne _ _ (howns a ha _ (by simp))

theorem Chain.link {front : List Node} {m n : Node} (hc : Chain h start (front ++ [m]))
    (hnodup : (footprint (front ++ [m])).Nodup) (hn : n.At h none) (hm : m.addr ∉ n.blocks) :
    Chain (h.set m.addr (some (.handler (some n.addr) m.pathPrefix m.fn m.data))) start
      (front ++ [m] ++ [n]) := by
  have hother (a : Nat) (ha : a ≠ m.addr) :
      (h.set m.addr (some (.handler (some n.addr) m.pathPrefix m.fn m.data))).get a = h.get a :=
    FdTable.get_set_of_ne _ _ ha
  induction front generalizing start with
  | nil =>
    obtain ⟨hstart, next, hmat, hnext⟩ := hc
    rw [List.nil_append, footprint_singleton] at hnodup
    refine ⟨hstart, _, hmat.relink hnodup (some n.addr), rfl, none, ?_, rfl⟩
    exact hn.frame fun a ha => hother a fun he => hm (he ▸ ha)
  | cons x front ih =>
    obtain ⟨hstart, next, hx, hrest⟩ := hc
    rw [List.cons_append, footprint_cons, List.nodup_append] at hnodup
    refine ⟨hstart, next, hx.frame fun a ha => hother a (hnodup.2.2 a ha _ ?_), ?_⟩
    · rw [footprint_append, footprint_singleton]
      simp [Node.blocks]
    · exact ih hrest hnodup.2.1

theorem Chain.last_at {front : List Node} {m : Node} (hc : Chain h start (front ++ [m])) :
    ∃ next, m.At h next := by
  induction front generalizing start with
  | nil =>
    obtain ⟨_, next, hm, _⟩ := hc
    exact ⟨next, hm⟩
  | cons x front ih =>
    obtain ⟨_, _, _, hrest⟩ := hc
    exact ih hrest

theorem Chain.start_eq {front : List Node} {m : Node} (hc : Chain h start (front ++ [m])) :
    ∃ a, start = some a := by
  cases front with
  | nil => exact ⟨_, hc.1⟩
  | cons x front => exact ⟨_, hc.1⟩

def owned (server : GeminiServer) (nodes : List Node) : List Nat :=
  server.ssl.toList ++ footprint nodes

/-- A heap holds a server with these handlers. -/
structure Represents (h : Heap Block) (server : GeminiServer) (nodes : List Node) : Prop where
  chain : Chain h server.first nodes
  last : server.last = nodes.getLast?.map Node.addr
  nodup : (owned server nodes).Nodup
  ssl : ∀ c ∈ server.ssl, (h.get c).isSome

theorem Represents.live (hr : Represents h server nodes) :
    ∀ a ∈ owned server nodes, (h.get a).isSome := by
  intro a ha
  cases List.mem_append.1 ha with
  | inl hssl => exact hr.ssl a (Option.mem_toList.1 hssl)
  | inr hnode => exact hr.chain.live a hnode

theorem Represents.frame (hr : Represents h server nodes)
    (hsame : ∀ a ∈ owned server nodes, h'.get a = h.get a) : Represents h' server nodes where
  chain := hr.chain.frame fun a ha => hsame a (List.mem_append_right _ ha)
  last := hr.last
  nodup := hr.nodup
  ssl c hc := by
    rw [hsame c (List.mem_append_left _ (Option.mem_toList.2 hc))]
    exact hr.ssl c hc

theorem Represents.notMem (hr : Represents h server nodes) (ha : h.get a = none) :
    a ∉ owned server nodes := by
  intro hmem
  have hlive := hr.live a hmem
  rw [ha] at hlive
  cases hlive

theorem Represents.alloc (hr : Represents h server nodes) (ha : h.get a = none) (b : Block) :
    Represents (h.set a (some b)) server nodes :=
  hr.frame fun _ hmem => FdTable.get_set_of_ne _ _ fun he => hr.notMem ha (he ▸ hmem)

theorem setNext_outcome {n : Node} (hn : n.At h next) {Q : Unit → Heap Block → Prop}
    (hQ : Q () (h.set n.addr (some (.handler next' n.pathPrefix n.fn n.data)))) :
    Outcome (setNext n.addr next') h Q fun _ _ => False := by
  apply Outcome.bind
  apply load_outcome hn.node
  exact store_outcome (by rw [hn.node]; rfl) hQ

theorem owned_append (server : GeminiServer) (nodes : List Node) (n : Node) :
    owned server (nodes ++ [n]) = owned server nodes ++ n.blocks := by
  rw [owned, owned, footprint_append, footprint_singleton, List.append_assoc]

theorem geminiHandle_outcome {n : Node} (hr : Represents h server nodes) (hn : n.At h stale)
    (hnodup : n.blocks.Nodup) (hapart : ∀ a ∈ n.blocks, a ∉ owned server nodes) :
    Outcome (geminiHandle server n.addr) h (fun r h' => r.1 = 0 ∧ r.2.ssl = server.ssl ∧
      Represents h' r.2 (nodes ++ [n]) ∧ Settled h h' ∧
      ∀ a, a ∉ owned server nodes → a ≠ n.addr → h'.get a = h.get a) fun _ _ => False := by
  have haddr : n.addr ∈ n.blocks := by simp [Node.blocks]
  unfold geminiHandle
  apply Outcome.bind
  apply setNext_outcome hn
  have hr₁ : Represents (h.set n.addr (some (.handler none n.pathPrefix n.fn n.data))) server
      nodes :=
    hr.frame fun a ha => FdTable.get_set_of_ne _ _ fun he => hapart n.addr haddr (he ▸ ha)
  have hn₁ := hn.relink hnodup none
  have hsettled := Settled.relink hn.node none
  have hsame₁ (a : Nat) (ha : a ≠ n.addr) :
      (h.set n.addr (some (.handler none n.pathPrefix n.fn n.data))).get a = h.get a :=
    FdTable.get_set_of_ne _ _ ha
  generalize h.set n.addr (some (.handler none n.pathPrefix n.fn n.data)) = h₁ at *
  have hnodup' : (owned server (nodes ++ [n])).Nodup := by
    rw [owned_append, List.nodup_append]
    exact ⟨hr.nodup, hnodup, fun a ha b hb he => hapart b hb (he ▸ ha)⟩
  rcases List.eq_nil_or_concat' nodes with rfl | ⟨front, m, rfl⟩
  · have hfirst : server.first = none := hr.chain
    have hlast : server.last = none := hr.last
    rw [hfirst]
    dsimp only [Option.isNone_none, ↓reduceIte]
    rw [hlast]
    refine .bind (.pure (.pure ⟨rfl, rfl, ⟨⟨rfl, none, hn₁, rfl⟩, rfl, hnodup', hr₁.ssl⟩, hsettled,
      ?_⟩))
    exact fun a _ ha => hsame₁ a ha
  · obtain ⟨next, hm⟩ := hr₁.chain.last_at
    obtain ⟨start, hfirst⟩ := hr₁.chain.start_eq
    have hlast : server.last = some m.addr := by rw [hr.last, List.getLast?_concat]; rfl
    have hmem : m.addr ∈ owned server (front ++ [m]) := by
      rw [owned_append]
      simp [Node.blocks]
    have hm' : m.addr ∉ n.blocks := fun hmem' => hapart _ hmem' hmem
    have hnot : server.first.isNone = false := by rw [hfirst]; rfl
    simp only [hnot, Bool.false_eq_true, ↓reduceIte, hlast]
    apply Outcome.bind
    apply setNext_outcome hm
    have hlinked := hr₁.chain.link (List.nodup_append.1 hr.nodup).2.1 hn₁ hm'
    refine .pure ⟨rfl, rfl, ⟨hlinked, ?_, hnodup', fun c hc => ?_⟩,
      hsettled.trans (.relink hm.node _), fun a ha hne => ?_⟩
    · rw [List.getLast?_concat]
      rfl
    · exact live_set (hr₁.ssl c hc)
    · have hne' : a ≠ m.addr := fun he => ha (he ▸ hmem)
      rw [FdTable.get_set_of_ne _ _ hne', hsame₁ a hne]

def around (h : Heap Block) (server : GeminiServer) (nodes : List Node) : Heap Block :=
  release h (owned server nodes)

theorem strdup_outcome (outcome : Option Nat) (s : CStr) (h : Heap Block) :
    Outcome (strdup outcome s) h (fun p h' => (p.isSome ↔ outcome.isSome) ∧
      (∀ x ∈ p, h.get x = none ∧ h'.get x = some (.text s)) ∧
      ∀ x, x ∉ p → h'.get x = h.get x) fun _ _ => False := by
  apply malloc_outcome
  · rintro rfl
    exact ⟨Iff.rfl, nofun, fun _ _ => rfl⟩
  · intro a hsome ha
    refine ⟨iff_of_true rfl hsome, ?_, ?_⟩
    · rintro x ⟨⟩
      exact ⟨ha, FdTable.get_set_self _ _ _⟩
    · intro x hx
      exact FdTable.get_set_of_ne _ _ fun he => hx (he ▸ rfl)

structure NewNode (h h₁ : Heap Block) (n : Node) : Prop where
  made : ∃ stale, n.At h₁ stale
  apart : n.addr ∉ n.pathPrefix
  new : ∀ x ∈ n.pathPrefix.toList ++ [n.addr], h.get x = none
  same : ∀ x, x ∉ n.pathPrefix.toList ++ [n.addr] → h₁.get x = h.get x

theorem NewNode.notMem (hn : NewNode h h₁ n) (hx : (h.get x).isSome) :
    x ∉ n.pathPrefix.toList ++ [n.addr] := by
  intro hmem
  rw [hn.new x hmem] at hx
  cases hx

theorem NewNode.settled (hn : NewNode h h₁ n) : Settled h h₁ := by
  refine .of_same fun x b hb => ?_
  rw [hn.same x (hn.notMem (by rw [hb]; rfl)), hb]

theorem NewNode.represents (hn : NewNode h h₁ n) (hr : Represents h server nodes) :
    Represents h₁ server nodes :=
  hr.frame fun x hx => hn.same x (hn.notMem (hr.live x hx))

theorem NewNode.blocks_nodup (hn : NewNode h h₁ n) (hown : n.own.Nodup)
    (hlive : ∀ a ∈ n.own, (h.get a).isSome) : n.blocks.Nodup := by
  refine List.nodup_append.2 ⟨hown, ?_, fun x hx y hy he => hn.notMem (hlive x hx) (he ▸ hy)⟩
  cases hp : n.pathPrefix with
  | none => exact List.nodup_singleton n.addr
  | some p =>
    refine List.nodup_cons.2 ⟨fun hmem => hn.apart ?_, List.nodup_singleton n.addr⟩
    rw [hp, List.mem_singleton.1 hmem]
    rfl

theorem geminiHandle_new {n : Node} (hr : Represents h server nodes) (hn : NewNode h h₁ n)
    (hown : n.own.Nodup) (hlive : ∀ a ∈ n.own, (h.get a).isSome)
    (hapart : ∀ a ∈ n.own, a ∉ owned server nodes) :
    Outcome (geminiHandle server n.addr) h₁ (fun r h' => r.1 = 0 ∧ r.2.ssl = server.ssl ∧
      Represents h' r.2 (nodes ++ [n]) ∧ Settled h₁ h' ∧
      around h' r.2 (nodes ++ [n]) = release (around h server nodes) n.own) fun _ _ => False := by
  obtain ⟨stale, hmade⟩ := hn.made
  have hblocks : ∀ a ∈ n.blocks, a ∉ owned server nodes := by
    intro a ha
    cases List.mem_append.1 ha with
    | inl hmem => exact hapart a hmem
    | inr hmem => exact hr.notMem (hn.new a hmem)
  apply (geminiHandle_outcome (hn.represents hr) hmade (hn.blocks_nodup hown hlive) hblocks).imp
  intro r h' hr'
  obtain ⟨hrc, hssl, hrepr, hsettled, hother⟩ := hr'
  refine ⟨hrc, hssl, hrepr, hsettled, ?_⟩
  have howned : owned r.2 (nodes ++ [n]) = owned server nodes ++ n.blocks := by
    rw [← owned_append, owned, owned, hssl]
  ext1 x
  rw [around, around, howned, Node.blocks, ← List.append_assoc, release_append, get_release,
    release_append]
  by_cases hx : x ∈ n.pathPrefix.toList ++ [n.addr]
  · rw [if_pos hx]
    rw [get_release, get_release, hn.new x hx]
    simp
  · rw [if_neg hx, get_release, get_release, get_release, get_release]
    by_cases hin : x ∈ owned server nodes
    · simp [hin]
    · rw [hother x hin fun he => hx (by rw [he]; simp), hn.same x hx]

structure Added (allocs : Allocs) (pathPrefix : CStr) (fn : Fn) (data : Option Nat) (h : Heap Block)
    (n : Node) : Prop where
  fn : n.fn = fn
  data : n.data = data
  pathPrefix : allocs.pathPrefix.isSome → readText h n.pathPrefix = some pathPrefix

/-- A registration takes over the data that it is given, unless it finds no memory for a node. -/
theorem geminiHandleFn_outcome {allocs : Allocs} (hr : Represents h server nodes)
    (hd : Data h fn data own) (hown : own.Nodup) (hapart : ∀ a ∈ own, a ∉ owned server nodes)
    (pathPrefix : CStr) :
    Outcome (geminiHandleFn allocs server pathPrefix fn data) h (fun r h' =>
      allocs.node = none ∧ r = (-1, server) ∧ h' = h ∨
        allocs.node.isSome ∧ r.1 = 0 ∧ r.2.ssl = server.ssl ∧ ∃ n,
          Added allocs pathPrefix fn data h' n ∧ Represents h' r.2 (nodes ++ [n]) ∧ Settled h h' ∧
            around h' r.2 (nodes ++ [n]) = release (around h server nodes) own)
      fun _ _ => False := by
  unfold geminiHandleFn
  apply Outcome.bind
  apply malloc_outcome
  · intro hnone
    exact .pure (.inl ⟨hnone, rfl, rfl⟩)
  · intro a hsome ha
    have hone (x : Nat) (hx : x ≠ a) :
        (h.set a (some (.handler allocs.stale none fn data))).get x = h.get x :=
      FdTable.get_set_of_ne _ _ hx
    have hlive : ((h.set a (some (.handler allocs.stale none fn data))).get a).isSome := by
      rw [FdTable.get_set_self]
      rfl
    generalize h.set a (some (.handler allocs.stale none fn data)) = h₁ at *
    apply Outcome.andThen (strdup_outcome allocs.pathPrefix pathPrefix h₁)
    intro p h₂ hp
    obtain ⟨hcopied, hp, hother⟩ := hp
    have hpa : a ∉ p := fun hmem => by
      rw [(hp a hmem).1] at hlive
      cases hlive
    apply Outcome.bind
    apply store_outcome (by rwa [hother a hpa])
    have hlast (x : Nat) (hx : x ≠ a) :
        (h₂.set a (some (.handler allocs.stale p fn data))).get x = h₂.get x :=
      FdTable.get_set_of_ne _ _ hx
    have hself := FdTable.get_set_self h₂ a (some (.handler allocs.stale p fn data))
    generalize h₂.set a (some (.handler allocs.stale p fn data)) = h₃ at *
    have htext (x : Nat) (hx : x ∈ p) : h₃.get x = some (.text pathPrefix) := by
      rw [hlast x fun he => hpa (he ▸ hx), (hp x hx).2]
    have hnew : ∀ x ∈ p.toList ++ [a], h.get x = none := by
      intro x hx
      rw [List.mem_append, Option.mem_toList, List.mem_singleton] at hx
      cases hx with
      | inl hmem => rw [← hone x fun he => hpa (he ▸ hmem), (hp x hmem).1]
      | inr he => rw [he, ha]
    have hsame : ∀ x, x ∉ p.toList ++ [a] → h₃.get x = h.get x := by
      intro x hx
      rw [List.mem_append, not_or, Option.mem_toList, List.mem_singleton] at hx
      rw [hlast x hx.2, hother x hx.1, hone x hx.2]
    have hdata : Data h₃ fn data own := hd.frame fun x hx => hsame x fun hmem => by
      have hlive := hd.live x hx
      rw [hnew x hmem] at hlive
      cases hlive
    have hn : NewNode h h₃ ⟨a, p, fn, data, own⟩ :=
      ⟨⟨_, hself, fun x hx => by rw [htext x hx]; rfl, hdata⟩, hpa, hnew, hsame⟩
    apply (geminiHandle_new hr hn hown hd.live hapart).imp
    intro r h' hr'
    obtain ⟨hrc, hssl, hrepr, hsettled, haround⟩ := hr'
    refine .inr ⟨hsome, hrc, hssl, _, ⟨rfl, rfl, fun hmalloc => ?_⟩, hrepr,
      hn.settled.trans hsettled, haround⟩
    obtain ⟨x, hx⟩ := Option.isSome_iff_exists.1 (hcopied.2 hmalloc)
    exact hsettled.readText (readText_eq_some.2 ⟨x, hx, htext x hx⟩)

theorem around_new {server : GeminiServer} {nodes : List Node} (hnew : ∀ x ∈ new, h.get x = none)
    (hsame : ∀ x, x ∉ new → h₁.get x = h.get x) :
    release (around h₁ server nodes) new = around h server nodes := by
  ext1 x
  rw [around, around, get_release, get_release, get_release]
  by_cases hx : x ∈ new
  · rw [if_pos hx, hnew x hx, ite_self]
  · rw [if_neg hx, hsame x hx]

theorem around_alloc (hr : Represents h server nodes) (ha : h.get a = none) (b : Block) :
    Gains (around h server nodes) [b] (around (h.set a (some b)) server nodes) := by
  have hnot := hr.notMem ha
  rw [around, around, release_set h hnot]
  exact .single (by rw [get_release_of_notMem h hnot, ha]) b

/-- What a call comes to: which blocks the server takes over, and which new ones are lost. -/
structure TakesOver (made : Bool) (own : List Nat) (lost : List Block)
    (As : Heap Block → Node → Prop) (h : Heap Block) (server : GeminiServer) (nodes : List Node)
    (server' : GeminiServer) (nodes' : List Node) (h' : Heap Block) : Prop where
  ssl : server'.ssl = server.ssl
  adds : ∃ new, nodes' = nodes ++ new ∧ new.length = made.toNat ∧ ∀ n ∈ new, As h' n
  represents : Represents h' server' nodes'
  settled : Settled h h'
  gains : Gains (release (around h server nodes) (if made then own else [])) lost
    (around h' server' nodes')

def Takes (made : Bool) (own : List Nat) (lost : List Block) (As : Heap Block → Node → Prop)
    (h : Heap Block) (server : GeminiServer) (nodes : List Node) (r : Int × GeminiServer)
    (h' : Heap Block) : Prop :=
  ∃ nodes', TakesOver made own lost As h server nodes r.2 nodes' h'

theorem takes_nothing (hr : Represents h server nodes) (own : List Nat) (rc : Int) :
    Takes false own [] As h server nodes (rc, server) h :=
  ⟨nodes, rfl, ⟨[], by simp, rfl, List.forall_mem_nil _⟩, hr, .refl h, .nothing _⟩

theorem adds_one {P : Node → Prop} (h : P n) :
    ∃ new, nodes ++ [n] = nodes ++ new ∧ new.length = true.toNat ∧ ∀ m ∈ new, P m :=
  ⟨[n], rfl, rfl, List.forall_mem_singleton.2 h⟩

theorem geminiHandle_takes {n : Node} (hr : Represents h server nodes) (hn : n.At h next)
    (hnodup : n.blocks.Nodup) (hapart : ∀ a ∈ n.blocks, a ∉ owned server nodes) :
    Outcome (geminiHandle server n.addr) h
      (Takes true n.blocks [] (fun _ m => m.addr = n.addr) h server nodes) fun _ _ => False := by
  apply (geminiHandle_outcome hr hn hnodup hapart).imp
  intro r h' hr'
  obtain ⟨-, hssl, hrepr, hsettled, hother⟩ := hr'
  refine ⟨_, hssl, adds_one rfl, hrepr, hsettled, .of_eq ?_⟩
  have howned : owned r.2 (nodes ++ [n]) = owned server nodes ++ n.blocks := by
    rw [← owned_append, owned, owned, hssl]
  rw [if_pos rfl, around, howned, around, ← release_append]
  refine release_congr (fun _ => Iff.rfl) fun x hx => ?_
  rw [List.mem_append, not_or] at hx
  exact hother x hx.1 fun he => hx.2 (by rw [he]; simp [Node.blocks])

theorem geminiHandleFn_takes {allocs : Allocs} (hr : Represents h server nodes)
    (hd : Data h fn data own) (hown : own.Nodup) (hapart : ∀ a ∈ own, a ∉ owned server nodes)
    (pathPrefix : CStr) :
    Outcome (geminiHandleFn allocs server pathPrefix fn data) h
      (Takes allocs.node.isSome own [] (Added allocs pathPrefix fn data) h server nodes)
      fun _ _ => False := by
  apply (geminiHandleFn_outcome hr hd hown hapart pathPrefix).imp
  intro r h' hr'
  obtain ⟨hnone, rfl, rfl⟩ | ⟨hsome, -, hssl, n, hadded, hrepr, hsettled, haround⟩ := hr'
  · rw [hnone]
    exact takes_nothing hr own (-1)
  · rw [hsome]
    exact ⟨_, hssl, adds_one hadded, hrepr, hsettled, .of_eq haround⟩

/-- The copy of a root, which `gemini_handle_fs` loses if there is no memory for its handler. -/
def lostRoot (allocs : Allocs) (root : CStr) : List Block :=
  if allocs.data.isSome ∧ allocs.node = none then [.text root] else []

def AddedFs (allocs : Allocs) (pathPrefix root : CStr) (h : Heap Block) (n : Node) : Prop :=
  ∃ data, Added allocs pathPrefix .fs data h n ∧ (allocs.data.isSome → readText h data = some root)

theorem geminiHandleFs_takes {allocs : Allocs} (hr : Represents h server nodes)
    (pathPrefix root : CStr) :
    Outcome (geminiHandleFs allocs server pathPrefix root) h
      (Takes allocs.node.isSome [] (lostRoot allocs root) (AddedFs allocs pathPrefix root) h server
        nodes) fun _ _ => False := by
  unfold geminiHandleFs
  apply Outcome.bind
  apply malloc_outcome
  · intro hnone
    have hd : Data h .fs none [] := .null (by decide)
    have hlost : lostRoot allocs root = [] := if_neg fun hl => by
      rw [hnone] at hl
      cases hl.1
    rw [hlost]
    apply (geminiHandleFn_outcome hr hd List.nodup_nil (List.forall_mem_nil _) pathPrefix).imp
    intro r h' hr'
    obtain ⟨hnode, rfl, rfl⟩ | ⟨hnode, -, hssl, n, hadded, hrepr, hsettled, haround⟩ := hr'
    · rw [hnode]
      exact takes_nothing hr [] (-1)
    · rw [hnode]
      refine ⟨_, hssl, adds_one ⟨none, hadded, fun hl => ?_⟩, hrepr, hsettled,
        .of_eq haround⟩
      rw [hnone] at hl
      cases hl
  · intro a hsome ha
    have hr₁ := hr.alloc ha (.text root)
    have hroot : (h.set a (some (.text root))).get a = some (.text root) :=
      FdTable.get_set_self _ _ _
    have hd : Data (h.set a (some (.text root))) .fs (some a) [a] :=
      .block (by decide) (by rw [hroot]; rfl)
    apply (geminiHandleFn_outcome hr₁ hd (List.nodup_singleton a)
      (List.forall_mem_singleton.2 (hr.notMem ha)) pathPrefix).imp
    intro r h' hr'
    obtain ⟨hnone, rfl, rfl⟩ | ⟨hnode, -, hssl, n, hadded, hrepr, hsettled, haround⟩ := hr'
    · have hlost : lostRoot allocs root = [.text root] := if_pos ⟨hsome, hnone⟩
      rw [hnone, hlost]
      exact ⟨nodes, rfl, ⟨[], by simp, rfl, List.forall_mem_nil _⟩, hr₁, .alloc ha _,
        around_alloc hr ha _⟩
    · have hlost : lostRoot allocs root = [] := if_neg fun hl => by
        rw [hl.2] at hnode
        cases hnode
      rw [hnode, hlost]
      have hread := hsettled.readText (readText_eq_some.2 ⟨a, rfl, hroot⟩)
      refine ⟨_, hssl, adds_one ⟨some a, hadded, fun _ => hread⟩, hrepr,
        (Settled.alloc ha _).trans hsettled, .of_eq ?_⟩
      rw [haround, ite_self]
      refine around_new (List.forall_mem_singleton.2 ha) fun x hx => ?_
      exact FdTable.get_set_of_ne _ _ fun he => hx (List.mem_singleton.2 he)

def AddedVhosts (allocs : Allocs) (urls n : Nat) (h : Heap Block) (m : Node) : Prop :=
  ∃ x, Added allocs rootPrefix .vhosts (some x) h m ∧ h.get x = some (.vhosts urls n)

theorem geminiHandleVhosts_takes {allocs : Allocs} (hr : Represents h server nodes)
    (hurls : h.get urls = some (.urls slots)) (hslots : slots.take n = as.map some)
    (hlen : as.length = n) (hlive : ∀ a ∈ as, (h.get a).isSome) (hown : (as ++ [urls]).Nodup)
    (hapart : ∀ a ∈ as ++ [urls], a ∉ owned server nodes) :
    Outcome (geminiHandleVhosts allocs server urls n) h
      (Takes (allocs.data.isSome && allocs.node.isSome) (as ++ [urls]) []
        (AddedVhosts allocs urls n) h server nodes) fun _ _ => False := by
  unfold geminiHandleVhosts
  apply Outcome.bind
  apply malloc_outcome
  · intro hnone
    rw [hnone]
    exact .pure (takes_nothing hr _ (-1))
  · intro x hsome hx
    have hr₁ := hr.alloc hx (.vhosts urls n)
    have hold : ∀ a ∈ as ++ [urls], (h.get a).isSome := by
      intro a ha
      cases List.mem_append.1 ha with
      | inl hmem => exact hlive a hmem
      | inr hmem =>
        rw [List.mem_singleton.1 hmem, hurls]
        rfl
    have hxnot : x ∉ as ++ [urls] := fun hmem => by
      have hlive := hold x hmem
      rw [hx] at hlive
      cases hlive
    have hsame (a : Nat) (ha : a ∈ as ++ [urls]) :
        (h.set x (some (.vhosts urls n))).get a = h.get a :=
      FdTable.get_set_of_ne _ _ fun he => hxnot (he ▸ ha)
    have hd : Data (h.set x (some (.vhosts urls n))) .vhosts (some x) (as ++ [urls, x]) := by
      refine .vhosts (FdTable.get_set_self _ _ _) (by rw [hsame urls (by simp), hurls]) hslots hlen
        fun a ha => ?_
      rw [hsame a (List.mem_append_left _ ha)]
      exact hlive a ha
    have hsplit : as ++ [urls, x] = (as ++ [urls]) ++ [x] := by simp
    rw [hsplit] at hd
    dsimp only
    apply Outcome.andThen (geminiHandleFn_outcome hr₁ hd
      (List.nodup_append.2 ⟨hown, List.nodup_singleton x, fun a ha b hb he =>
        hxnot (List.mem_singleton.1 hb ▸ he ▸ ha)⟩) (fun a ha => ?_) rootPrefix)
    · intro r h₁ hr'
      obtain ⟨hnone, rfl, rfl⟩ | ⟨hnode, hrc, hssl, m, hadded, hrepr, hsettled, haround⟩ := hr'
      · dsimp only
        rw [if_pos (by decide)]
        apply Outcome.bind
        apply free_outcome (by rw [FdTable.get_set_self]; rfl)
        have hback : (h.set x (some (.vhosts urls n))).close x = h := by
          rw [FdTable.close, FdTable.set_set, FdTable.set_self _ hx]
        rw [hback, hnone, Option.isSome_none, Bool.and_false]
        exact .pure (takes_nothing hr _ (-1))
      · rw [if_neg (not_not.2 hrc), hsome, hnode]
        have hvhosts := hsettled.get (FdTable.get_set_self h x (some (.vhosts urls n)))
          fun _ _ _ _ he => by cases he
        refine .pure ⟨_, hssl, adds_one ⟨x, hadded, hvhosts⟩, hrepr,
          (Settled.alloc hx _).trans hsettled, .of_eq ?_⟩
        have hnew : release (around (h.set x (some (.vhosts urls n))) server nodes) [x] =
            around h server nodes := by
          refine around_new (List.forall_mem_singleton.2 hx) fun a ha => ?_
          exact FdTable.get_set_of_ne _ _ fun he => ha (List.mem_singleton.2 he)
        rw [haround, release_comm, release_append, hnew]
        rfl
    · cases List.mem_append.1 ha with
      | inl hmem => exact hapart a hmem
      | inr hmem => exact List.mem_singleton.1 hmem ▸ hr.notMem hx

end Geminon.OnHeap
