import Geminon.Lifetime

namespace Geminon.OnHeap
open Memory Process Descriptors Heaps
set_option autoImplicit true

inductive Call where
  | handle (handler : Nat)
  | fn (pathPrefix : CStr) (handler : Fn) (data : Option Nat)
  | fs (pathPrefix root : CStr)
  | authn (pathPrefix : CStr) (store : Option Nat)
  | vhosts (urls n : Nat)

def Call.run (allocs : Allocs) (server : GeminiServer) :
    Call → Proc (Heap Block) (Int × GeminiServer)
  | .handle handler => geminiHandle server handler
  | .fn pathPrefix handler data => geminiHandleFn allocs server pathPrefix handler data
  | .fs pathPrefix root => geminiHandleFs allocs server pathPrefix root
  | .authn pathPrefix store => geminiHandleAuthn allocs server pathPrefix store
  | .vhosts urls n => geminiHandleVhosts allocs server urls n

def registerAll (server : GeminiServer) : List (Allocs × Call) → Proc (Heap Block) GeminiServer
  | [] => pure server
  | (allocs, call) :: calls => do
    let (_, server) ← call.run allocs server
    registerAll server calls

def Call.makes (allocs : Allocs) : Call → Bool
  | .handle _ => true
  | .vhosts _ _ => allocs.data.isSome && allocs.node.isSome
  | _ => allocs.node.isSome

def Call.lost (allocs : Allocs) : Call → List Block
  | .fs _ root => lostRoot allocs root
  | _ => []

def Call.Adds (allocs : Allocs) : Call → Heap Block → Node → Prop
  | .handle handler, _, n => n.addr = handler
  | .fn pathPrefix handler data, h, n => Added allocs pathPrefix handler data h n
  | .fs pathPrefix root, h, n => AddedFs allocs pathPrefix root h n
  | .authn pathPrefix store, h, n => Added allocs pathPrefix .authn store h n
  | .vhosts urls n, h, m => AddedVhosts allocs urls n h m

inductive Offered (h : Heap Block) : Call → List Nat → Prop where
  | handle {n : Node} : n.At h next → Offered h (.handle n.addr) n.blocks
  | fn : Data h handler data own → Offered h (.fn pathPrefix handler data) own
  | fs : Offered h (.fs pathPrefix root) []
  | authn : (∀ a ∈ certs, (h.get a).isSome) → Offered h (.authn pathPrefix certs) certs.toList
  | vhosts : h.get urls = some (.urls slots) → slots.take n = as.map some → as.length = n →
      (∀ a ∈ as, (h.get a).isSome) → Offered h (.vhosts urls n) (as ++ [urls])

theorem Offered.live (ho : Offered h call own) : ∀ a ∈ own, (h.get a).isSome := by
  cases ho with
  | handle hn => exact hn.live
  | fn hd => exact hd.live
  | fs => exact List.forall_mem_nil _
  | authn hcerts => exact fun a ha => hcerts a (Option.mem_toList.1 ha)
  | vhosts hurls hslots hlen hlive =>
    intro a ha
    cases List.mem_append.1 ha with
    | inl hmem => exact hlive a hmem
    | inr hmem =>
      rw [List.mem_singleton.1 hmem, hurls]
      rfl

theorem Offered.frame (ho : Offered h call own) (hsame : ∀ a ∈ own, h'.get a = h.get a) :
    Offered h' call own := by
  cases ho with
  | handle hn => exact .handle (hn.frame hsame)
  | fn hd => exact .fn (hd.frame hsame)
  | fs => exact .fs
  | authn hcerts =>
    refine .authn fun a ha => ?_
    rw [hsame a (Option.mem_toList.2 ha)]
    exact hcerts a ha
  | vhosts hurls hslots hlen hlive =>
    refine .vhosts (by rwa [hsame _ (by simp)]) hslots hlen fun a ha => ?_
    rw [hsame a (List.mem_append_left _ ha)]
    exact hlive a ha

theorem Call.run_takes {allocs : Allocs} (hr : Represents h server nodes)
    (ho : Offered h call own) (hown : own.Nodup) (hapart : ∀ a ∈ own, a ∉ owned server nodes) :
    Outcome (call.run allocs server) h
      (Takes (call.makes allocs) own (call.lost allocs) (call.Adds allocs) h server nodes)
      fun _ _ => False := by
  cases ho with
  | handle hn => exact geminiHandle_takes hr hn hown hapart
  | @fn _ _ _ pathPrefix hd => exact geminiHandleFn_takes hr hd hown hapart pathPrefix
  | @fs pathPrefix root => exact geminiHandleFs_takes hr pathPrefix root
  | @authn certs pathPrefix hcerts =>
    have hd : Data h .authn certs certs.toList := by
      cases certs with
      | none => exact .null (by decide)
      | some a => exact .block (by decide) (hcerts a rfl)
    exact geminiHandleFn_takes hr hd hown hapart pathPrefix
  | vhosts hurls hslots hlen hlive =>
    exact geminiHandleVhosts_takes hr hurls hslots hlen hlive hown hapart

/-- A call with its allocations and the blocks of its caller that it is about. -/
structure Handing where
  allocs : Allocs
  call : Call
  own : List Nat

def Handing.step (g : Handing) : Allocs × Call := (g.allocs, g.call)

def Handing.makes (g : Handing) : Bool := g.call.makes g.allocs

def Handing.lost (g : Handing) : List Block := g.call.lost g.allocs

/-- The blocks that come to belong to a server. -/
def taken (handings : List Handing) : List Nat :=
  handings.flatMap fun g => if g.makes then g.own else []

def offered (handings : List Handing) : List Nat := handings.flatMap Handing.own

def losses (handings : List Handing) : List Block := handings.flatMap Handing.lost

theorem taken_cons (g : Handing) (handings : List Handing) :
    taken (g :: handings) = (if g.makes then g.own else []) ++ taken handings := List.flatMap_cons

theorem offered_cons (g : Handing) (handings : List Handing) :
    offered (g :: handings) = g.own ++ offered handings := List.flatMap_cons

theorem taken_subset (handings : List Handing) : taken handings ⊆ offered handings := by
  intro a ha
  obtain ⟨g, hg, hmem⟩ := List.mem_flatMap.1 ha
  refine List.mem_flatMap.2 ⟨g, hg, ?_⟩
  split at hmem
  · exact hmem
  · cases hmem

theorem TakesOver.spares (ht : TakesOver made own lost As h server nodes server' nodes' h')
    (hlive : (h.get a).isSome) (hapart : a ∉ owned server nodes) (hown : a ∉ own) :
    h'.get a = h.get a ∧ a ∉ owned server' nodes' := by
  obtain ⟨b, hb⟩ := Option.isSome_iff_exists.1 hlive
  have hbefore : (release (around h server nodes) (if made then own else [])).get a = some b := by
    rw [get_release_of_notMem, around, get_release_of_notMem h hapart, hb]
    split
    · exact hown
    · exact List.not_mem_nil
  have hafter := ht.gains.keeps hbefore
  rw [around, get_release] at hafter
  split at hafter
  · cases hafter
  · rename_i hnot
    exact ⟨by rw [hafter, hb], hnot⟩

structure Ready (h : Heap Block) (server : GeminiServer) (nodes : List Node)
    (handings : List Handing) : Prop where
  represents : Represents h server nodes
  offers : ∀ g ∈ handings, Offered h g.call g.own
  nodup : (owned server nodes ++ offered handings).Nodup

theorem Ready.live (hr : Ready h server nodes handings) :
    ∀ a ∈ offered handings, (h.get a).isSome := by
  intro a ha
  obtain ⟨g, hg, hmem⟩ := List.mem_flatMap.1 ha
  exact (hr.offers g hg).live a hmem

theorem Ready.apart (hr : Ready h server nodes handings) :
    ∀ a ∈ offered handings, a ∉ owned server nodes := fun a ha hmem =>
  (List.nodup_append.1 hr.nodup).2.2 a hmem a ha rfl

/-- What a registration leaves of the blocks for those behind it. -/
structure Beside (h : Heap Block) (g : Handing) (handings : List Handing)
    (server : GeminiServer) (nodes : List Node) : Prop where
  own : g.own.Nodup
  live : ∀ a ∈ offered handings, (h.get a).isSome
  apart : ∀ a ∈ offered handings, a ∉ owned server nodes
  beside : ∀ a ∈ offered handings, a ∉ g.own

theorem Ready.rest (hr : Ready h server nodes (g :: handings)) :
    Beside h g handings server nodes := by
  have hsub (a : Nat) (ha : a ∈ offered handings) :
      a ∈ offered (g :: handings) := by
    rw [offered_cons]
    exact List.mem_append_right _ ha
  have hnodup := (List.nodup_append.1 hr.nodup).2.1
  rw [offered_cons] at hnodup
  obtain ⟨hown, -, howns⟩ := List.nodup_append.1 hnodup
  exact ⟨hown, fun a ha => hr.live a (hsub a ha), fun a ha => hr.apart a (hsub a ha),
    fun a ha hmem => howns a hmem a ha rfl⟩

/-- A registration leaves everything in place for the next ones. -/
theorem Ready.step (hr : Ready h server nodes (g :: handings)) :
    Outcome (g.call.run g.allocs server) h (fun r h₁ => ∃ nodes₁,
      TakesOver g.makes g.own g.lost (g.call.Adds g.allocs) h server nodes r.2 nodes₁ h₁ ∧
        Ready h₁ r.2 nodes₁ handings) fun _ _ => False := by
  have hrest := hr.rest
  apply (Call.run_takes hr.represents (hr.offers g List.mem_cons_self) hrest.own fun a ha =>
    hr.apart a (offered_cons g handings ▸ List.mem_append_left _ ha)).imp
  intro r h₁ ht
  obtain ⟨nodes₁, ht⟩ := ht
  have hspares (a : Nat) (ha : a ∈ offered handings) :=
    ht.spares (hrest.live a ha) (hrest.apart a ha) (hrest.beside a ha)
  refine ⟨nodes₁, ht, ht.represents, fun g' hg' => ?_, ?_⟩
  · exact (hr.offers g' (List.mem_cons_of_mem _ hg')).frame fun a ha =>
      (hspares a (List.mem_flatMap.2 ⟨g', hg', ha⟩)).1
  · have hnodup := (List.nodup_append.1 hr.nodup).2.1
    rw [offered_cons] at hnodup
    exact List.nodup_append.2 ⟨ht.represents.nodup, (List.nodup_append.1 hnodup).2.1,
      fun a ha b hb he => (hspares b hb).2 (he ▸ ha)⟩

/-- Registrations, one after the other, take over what is given to those that make a handler. -/
theorem registerAll_outcome {handings : List Handing} (hr : Ready h server nodes handings) :
    Outcome (registerAll server (handings.map Handing.step)) h (fun server' h' => ∃ nodes',
      server'.ssl = server.ssl ∧ nodes'.length = nodes.length + handings.countP Handing.makes ∧
      Represents h' server' nodes' ∧
      Gains (release (around h server nodes) (taken handings)) (losses handings)
        (around h' server' nodes')) fun _ _ => False := by
  induction handings generalizing h server nodes with
  | nil => exact .pure ⟨nodes, rfl, rfl, hr.represents, .nothing _⟩
  | cons g handings ih =>
    have hrest := hr.rest
    apply Outcome.andThen hr.step
    intro r h₁ ht
    obtain ⟨nodes₁, ht, hr₁⟩ := ht
    apply (ih hr₁).imp
    intro server' h' hserver'
    obtain ⟨nodes', hssl, hlen, hrepr, hgains⟩ := hserver'
    refine ⟨nodes', hssl.trans ht.ssl, ?_, hrepr, ?_⟩
    · obtain ⟨new, hnew, hcount, -⟩ := ht.adds
      have hmade : g.makes.toNat = if g.makes = true then 1 else 0 := by
        cases g.makes <;> rfl
      rw [hlen, hnew, List.length_append, hcount, List.countP_cons, ← hmade]
      omega
    · have hkept : ∀ a ∈ taken handings,
          ((release (around h server nodes) (if g.makes then g.own else [])).get a).isSome := by
        intro a ha
        have hmem := taken_subset handings ha
        rw [get_release_of_notMem, around, get_release_of_notMem h (hrest.apart a hmem)]
        · exact hrest.live a hmem
        · split
          · exact hrest.beside a hmem
          · exact List.not_mem_nil
      rw [taken_cons, release_append]
      exact (ht.gains.release hkept).trans hgains

/-- Closing a server frees all of its blocks, and nothing else. -/
theorem geminiServerClose_outcome (hr : Represents h server nodes) (hfuel : nodes.length ≤ fuel) :
    Outcome (geminiServerClose fuel server) h (fun _ h' => h' = around h server nodes)
      fun _ _ => False := by
  obtain ⟨-, hnodes, hapart⟩ := List.nodup_append.1 hr.nodup
  apply Outcome.andThen (freePtr_outcome hr.ssl)
  intro _ h₁ hh₁
  subst hh₁
  have hc : Chain (release h server.ssl.toList) server.first nodes := by
    refine hr.chain.frame fun a ha => ?_
    exact get_release_of_notMem h fun hmem => hapart a hmem a ha rfl
  apply (closeHandlers_outcome hc hnodes hfuel).imp
  intro _ h' hh'
  rw [hh', around, owned, release_append]

theorem ready_fresh {handings : List Handing} (hssl : ∀ c ∈ ssl, (h.get c).isSome)
    (hoffered : ∀ g ∈ handings, Offered h g.call g.own)
    (hnodup : (ssl.toList ++ offered handings).Nodup) : Ready h ⟨none, none, ssl⟩ [] handings where
  represents := ⟨rfl, rfl, by
    rw [owned, footprint, List.flatMap_nil, List.append_nil]
    exact (List.nodup_append.1 hnodup).1, hssl⟩
  offers := hoffered
  nodup := by rwa [owned, footprint, List.flatMap_nil, List.append_nil]

/-- Each block is freed once, and all that is left are the copies of roots that got no handler. -/
theorem geminiServer_lifetime (handings : List Handing) (hssl : ∀ c ∈ ssl, (h.get c).isSome)
    (hoffered : ∀ g ∈ handings, Offered h g.call g.own)
    (hnodup : (ssl.toList ++ offered handings).Nodup) :
    Outcome (do
      let server ← registerAll ⟨none, none, ssl⟩ (handings.map Handing.step)
      geminiServerClose handings.length server) h
      (fun _ h' => Gains (release h (ssl.toList ++ taken handings)) (losses handings) h')
      fun _ _ => False := by
  have howned : owned ⟨none, none, ssl⟩ [] = ssl.toList := List.append_nil _
  apply Outcome.andThen (registerAll_outcome (ready_fresh hssl hoffered hnodup))
  intro server h₁ hserver
  obtain ⟨nodes, -, hlen, hrepr, hgains⟩ := hserver
  have hfuel : nodes.length ≤ handings.length := by
    rw [hlen, List.length_nil, Nat.zero_add]
    exact List.countP_le_length
  apply (geminiServerClose_outcome hrepr hfuel).imp
  intro _ h' hh'
  rw [hh', release_append, ← howned]
  exact hgains

/-- A TLS context, and URLs for two hosts in a list of them. -/
def atStart : Heap Block :=
  (((FdTable.empty.set 0 (some (.other 0))).set 1 (some (.other 1))).set 2 (some (.other 2))).set 3
    (some (.urls [some 1, some 2]))

/-- A handler for these hosts, and one for files that there is no memory for. -/
def twoCalls : List Handing :=
  [⟨⟨some 4, none, some 5, some 6⟩, .vhosts 3 2, [1, 2, 3]⟩,
    ⟨⟨none, none, none, some 7⟩, .fs rootPrefix rootPrefix, []⟩]

theorem geminiServer_lifetime_twoCalls :
    Outcome (do
      let server ← registerAll ⟨none, none, some 0⟩ (twoCalls.map Handing.step)
      geminiServerClose 2 server) atStart
      (fun _ h' => Gains (release atStart [0, 1, 2, 3]) [.text rootPrefix] h')
      fun _ _ => False := by
  apply geminiServer_lifetime twoCalls
  · rintro c ⟨⟩
    rfl
  · refine List.forall_mem_cons.2 ⟨?_, List.forall_mem_singleton.2 .fs⟩
    change Offered atStart (.vhosts 3 2) ([1, 2] ++ [3])
    exact .vhosts rfl rfl rfl (by decide)
  · decide

/-- A server that is closed twice frees a block twice, unless it has none. -/
theorem geminiServerClose_twice (hr : Represents h server nodes) (hfuel : nodes.length ≤ fuel) :
    Outcome (do
      geminiServerClose fuel server
      geminiServerClose fuel server) h
      (fun _ h' => server.ssl = none ∧ server.first = none ∧ h' = h)
      (fun fault h' => ((∃ c, server.ssl = some c ∧ fault = .store c) ∨
        server.ssl = none ∧ ∃ a, server.first = some a ∧ fault = .load a) ∧
        h' = around h server nodes) := by
  apply Outcome.andThen (geminiServerClose_outcome hr hfuel).sure
  intro _ h₁ hh₁
  have hgone (a : Nat) (ha : a ∈ owned server nodes) : h₁.get a = none := by
    rw [hh₁, around, get_release, if_pos ha]
  unfold geminiServerClose
  apply Outcome.bind
  cases hssl : server.ssl with
  | some c =>
    apply free_dangling
    · apply hgone
      rw [owned, hssl]
      exact List.mem_cons_self
    · exact ⟨.inl ⟨c, rfl, rfl⟩, hh₁⟩
  | none =>
    apply Outcome.pure
    cases nodes with
    | nil =>
      have hfirst : server.first = none := hr.chain
      rw [hfirst, closeHandlers]
      refine .pure ⟨rfl, rfl, ?_⟩
      rw [hh₁, around, owned, hssl]
      rfl
    | cons n nodes =>
      obtain ⟨fuel, rfl⟩ := Nat.exists_eq_succ_of_ne_zero (Nat.ne_zero_of_lt hfuel)
      have hfirst : server.first = some n.addr := hr.chain.1
      rw [hfirst, closeHandlers]
      apply Outcome.bind
      apply load_dangling
      · apply hgone
        rw [owned, footprint_cons, Node.blocks]
        simp
      · exact ⟨.inr ⟨rfl, n.addr, rfl, rfl⟩, hh₁⟩

def oneHandler : Heap Block := FdTable.empty.set 1 (some (.handler none none .echo none))

theorem geminiServerClose_twice_oneHandler :
    Outcome (do
      geminiServerClose 1 ⟨some 1, some 1, none⟩
      geminiServerClose 1 ⟨some 1, some 1, none⟩) oneHandler
      (fun _ h' => (none : Option Nat) = none ∧ some 1 = none ∧ h' = oneHandler)
      (fun fault h' => ((∃ c, none = some c ∧ fault = .store c) ∨
        (none : Option Nat) = none ∧ ∃ a, some 1 = some a ∧ fault = .load a) ∧
        h' = around oneHandler ⟨some 1, some 1, none⟩ [⟨1, none, .echo, none, []⟩]) :=
  geminiServerClose_twice
    ⟨⟨rfl, none, ⟨rfl, nofun, .null (by decide)⟩, rfl⟩, rfl, by decide, nofun⟩ (Nat.le_refl 1)

end Geminon.OnHeap
