import Geminon.Channels
import Geminon.StatusLine
import Geminon.Response
import Geminon.Reach

namespace Geminon
open Memory Process Channels
set_option autoImplicit true

def sentTo (i : Nat) (log : List Event) : List (List UInt8) :=
  log.filterMap fun
    | .sent j octets => if j = i then some octets else none
    | _ => none

theorem sentTo_append (i : Nat) (l l' : List Event) :
    sentTo i (l ++ l') = sentTo i l ++ sentTo i l' := List.filterMap_append

/-- A connection as a channel: every write still in store carries one piece. -/
def World.channel (w : World) (i : Nat) : Channel (List UInt8) :=
  ⟨sentTo i w.log, w.writes.length⟩

def World.Steady (w : World) : Prop := ∀ k ∈ w.writes, k.isSome

/-- A stretch of serving that offers pieces to connection `i` and nothing to any other. -/
structure Offers (i : Nat) (pieces : List (List UInt8)) (w w' : World) : Prop where
  channel : w'.channel i = (w.channel i).offer pieces
  others : ∀ j, j ≠ i → sentTo j w'.log = sentTo j w.log
  steady : w.Steady → w'.Steady
  accepted : w'.accepted = w.accepted

theorem Offers.refl (i : Nat) (w : World) : Offers i [] w w :=
  ⟨(Channel.offer_nil _).symm, fun _ _ => rfl, id, rfl⟩

theorem Offers.trans (h : Offers i pieces w w₁) (h' : Offers i pieces' w₁ w₂) :
    Offers i (pieces ++ pieces') w w₂ where
  channel := by rw [h'.channel, h.channel, Channel.offer_append]
  others j hj := (h'.others j hj).trans (h.others j hj)
  steady hs := h'.steady (h.steady hs)
  accepted := h'.accepted.trans h.accepted

theorem Offers.full (h : Offers i pieces w w') (hfull : w'.writes = []) (more : List (List UInt8)) :
    Offers i (pieces ++ more) w w' where
  channel := by
    rw [Channel.offer_append, ← h.channel, Channel.offer_full]
    rw [World.channel, hfull]
    rfl
  others := h.others
  steady := h.steady
  accepted := h.accepted

/-- A stretch of serving that leaves the request and the outcomes of calls alone. -/
structure Rests (w w' : World) : Prop where
  req : w'.req = w.req
  calls : w'.calls = w.calls

theorem Rests.refl (w : World) : Rests w w := ⟨rfl, rfl⟩

theorem Rests.trans (h : Rests w w₁) (h' : Rests w₁ w₂) : Rests w w₂ :=
  ⟨h'.req.trans h.req, h'.calls.trans h.calls⟩

def inOne (octets : List UInt8) : List (List UInt8) := if octets = [] then [] else [octets]

theorem Offers.told {w w' : World} (i : Nat) (events : List Event)
    (hlog : w'.log = w.log ++ events) (hsent : ∀ j, sentTo j events = [])
    (hwrites : w'.writes = w.writes) (haccepted : w'.accepted = w.accepted) :
    Offers i [] w w' where
  channel := by rw [Channel.offer_nil, World.channel, hlog, sentTo_append, hsent, List.append_nil,
    hwrites, World.channel]
  others j _ := by rw [hlog, sentTo_append, hsent, List.append_nil]
  steady hs := by rwa [World.Steady, hwrites]
  accepted := haccepted

theorem emit_offers (i : Nat) (w : World) {event : Event} (h : ∀ j, sentTo j [event] = []) :
    Outcome (emit event) w (fun _ w' => Offers i [] w w' ∧ Rests w w') fun _ _ => False :=
  .modify ⟨.told i [event] rfl h rfl rfl, rfl, rfl⟩

theorem openFd_offers (i : Nat) (w : World) (desc : Desc) :
    Outcome (openFd desc) w (fun _ w' => Offers i [] w w' ∧ Rests w w') fun _ _ => False :=
  .modifyGet ⟨.told i [.opened desc] rfl (fun _ => rfl) rfl rfl, rfl, rfl⟩

theorem closeFd_offers (i : Nat) (w : World) (fd : Nat) :
    Outcome (closeFd fd) w (fun _ w' => Offers i [] w w' ∧ Rests w w') fun _ _ => False := by
  apply Outcome.modify
  split
  · rename_i desc _
    exact ⟨.told i [.closed desc] rfl (fun _ => rfl) rfl rfl, rfl, rfl⟩
  · exact ⟨.refl i w, .refl w⟩

theorem geminiRequestClose_offers (i : Nat) (w : World) :
    Outcome geminiRequestClose w (fun _ w' => Offers i [] w w' ∧ w'.calls = w.calls)
      fun _ _ => False := by
  have hself (w : World) (req : GeminiRequest) : Offers i [] w { w with req := req } :=
    .told i [] (by rw [List.append_nil]) (fun _ => rfl) rfl rfl
  have hurl (w : World) : Outcome (do
      if (← get).req.url.isSome then
        modify fun w : World => { w with req.url := none }) w
      (fun _ w' => Offers i [] w w' ∧ w'.calls = w.calls) fun _ _ => False := by
    apply Outcome.bind (.get _)
    split
    · exact .modify ⟨hself w _, rfl⟩
    · exact .pure ⟨.refl i w, rfl⟩
  have hfd (w : World) : Outcome (do
      if 0 ≤ (← get).req.fd then
        closeFd (← get).req.fd.toNat
        modify fun w => { w with req.fd := -1 }
      if (← get).req.url.isSome then
        modify fun w : World => { w with req.url := none }) w
      (fun _ w' => Offers i [] w w' ∧ w'.calls = w.calls) fun _ _ => False := by
    apply Outcome.bind (.get _)
    split
    · refine .bind (.get (.andThen (closeFd_offers i w _) fun _ w₁ hw₁ => ?_))
      refine .bind (.modify ((hurl _).imp fun _ w' hw' => ?_))
      exact ⟨(hw₁.1.trans (hself w₁ _)).trans hw'.1, hw'.2.trans hw₁.2.calls⟩
    · exact hurl w
  unfold geminiRequestClose
  apply Outcome.bind (.get _)
  split
  · refine .bind (.modify ((hfd _).imp fun _ w' hw' => ?_))
    exact ⟨(hself w _).trans hw'.1, hw'.2⟩
  · exact hfd w

theorem sslWriteEx_offers (h : w.req.ssl = some ⟨i, false⟩) (hs : w.Steady)
    (hpos : 0 < octets.length) :
    Outcome (sslWriteEx w.req.ssl octets hpos) w (fun taken w' =>
      Offers i [octets] w w' ∧ Rests w w' ∧
        ((∃ k, taken = some k ∧ k.1 = octets.length) ∨ taken = none ∧ w'.writes = []))
      fun _ _ => False := by
  rw [h]
  apply Outcome.modifyGet
  split
  · rename_i k writes hwrites
    refine ⟨⟨?_, ?_, ?_, rfl⟩, ⟨rfl, rfl⟩, .inl ⟨_, rfl, rfl⟩⟩
    · have htake : octets.take octets.length = octets := List.take_length
      have hroom : w.channel i = ⟨sentTo i w.log, writes.length + 1⟩ := by
        rw [World.channel, hwrites, List.length_cons]
      rw [hroom, Channel.offer_cons]
      simp [World.channel, Ssl.taken, htake, sentTo]
    · intro j hj
      simp [sentTo, Ne.symm hj]
    · intro _ k hk
      exact hs k (by rw [hwrites]; exact List.mem_cons_of_mem _ hk)
  · rename_i writes hwrites
    have hfails := hs none (by rw [hwrites]; exact List.mem_cons_self)
    cases hfails
  · rename_i hwrites
    exact ⟨(Offers.refl i w).full hwrites [octets], .refl w, .inr ⟨rfl, hwrites⟩⟩

theorem geminiRequestWrite_offers {buf : List UInt8} (h : w.req.ssl = some ⟨i, false⟩)
    (hs : w.Steady) (hn : n ≤ buf.length) :
    Outcome (geminiRequestWrite buf n) w (fun r w' => Offers i (inOne (buf.take n)) w w' ∧
      Rests w w' ∧ (r = n ∨ r = -1 ∧ w'.writes = [])) fun _ _ => False := by
  unfold geminiRequestWrite
  rw [geminiRequestWriteLoop]
  split
  · rename_i hpos
    have hrun : 0 + n ≤ buf.length := by rwa [Nat.zero_add]
    have hone : inOne (buf.take n) = [buf.take n] := by
      rw [inOne, if_neg]
      intro hnil
      have hlen := congrArg List.length hnil
      rw [List.length_take, List.length_nil] at hlen
      omega
    refine .bind (.checked (fun run hload => ?_) fun fault he => ?_)
    · rw [loadRun, dif_pos hrun] at hload
      cases hload
      refine .bind (.get (.andThen (sslWriteEx_offers h hs _) ?_))
      intro taken w' hw'
      obtain ⟨hoffers, hrests, htaken⟩ := hw'
      rw [List.drop_zero] at hoffers
      rw [hone]
      cases htaken with
      | inl hall =>
        obtain ⟨⟨k, hk0, hkn⟩, rfl, hk⟩ := hall
        have hkn : k = n := by
          change k = _ at hk
          rw [hk, List.drop_zero, List.length_take]
          omega
        subst k
        change Outcome (geminiRequestWriteLoop _ _ _ _) w' _ _
        rw [geminiRequestWriteLoop, dif_neg (by omega)]
        exact .pure ⟨hoffers, hrests, .inl (by simp)⟩
      | inr hnone =>
        obtain ⟨rfl, hfull⟩ := hnone
        exact .pure ⟨hoffers, hrests, .inr ⟨rfl, hfull⟩⟩
    · rw [loadRun, dif_pos hrun] at he
      cases he
  · rename_i hpos
    have hzero : n = 0 := by omega
    rw [hzero, List.take_zero]
    exact .pure ⟨.refl i w, .refl w, .inl rfl⟩

theorem geminiRequestRespond_offers (h : w.req.ssl = some ⟨i, false⟩) (hs : w.Steady)
    {status : Nat} (hlow : 10 ≤ status) (hhigh : status ≤ 99) (text : CStr) :
    Outcome (geminiRequestRespond status text) w (fun _ w' =>
      Offers i [lineOf status text] w w' ∧ Rests w w') fun _ _ => False := by
  obtain ⟨buf, hheld, heq⟩ := geminiRequestRespond_eq hlow hhigh text
  have hbegun : Offers i [] w (w.begun status) ∧ Rests w (w.begun status) := by
    rw [World.begun, h]
    exact ⟨.told i _ rfl (fun _ => rfl) rfl rfl, rfl, rfl⟩
  have hssl : (w.begun status).req.ssl = some ⟨i, false⟩ := by rw [hbegun.2.req, h]
  have hroom := hheld.length_lt.le.trans_eq buf.size.symm
  have hrun := geminiRequestWrite_offers hssl (hbegun.1.steady hs) hroom
  rw [Buf.Starts.take_eq hheld.starts] at hrun
  unfold Outcome at hrun ⊢
  rw [heq]
  revert hrun
  generalize geminiRequestWrite _ _ _ = r
  intro hrun
  cases r with
  | error fault w' => exact hrun
  | ok r w' =>
    obtain ⟨hoffers, hrests, _⟩ := hrun
    have hline : inOne (lineOf status text) = [lineOf status text] := by
      rw [inOne, if_neg]
      simp [lineOf]
    rw [hline] at hoffers
    exact ⟨hbegun.1.trans hoffers, hbegun.2.trans hrests⟩

/-- The pieces in which reads bring what is ahead, none longer than a block. -/
def chunks (block : Nat) (reads : List (Option (List UInt8))) : List (List UInt8) :=
  match _h : read reads block with
  | (some (c :: piece), reads') => (c :: piece) :: chunks block reads'
  | _ => []
termination_by pendingReads reads
decreasing_by exact read_pending _h (List.cons_ne_nil _ _)

theorem chunks_more (h : read reads block = (some (c :: piece), reads')) :
    chunks block reads = (c :: piece) :: chunks block reads' := by
  rw [chunks]
  split
  · rename_i h'
    rw [h] at h'
    cases h'
    rfl
  · rename_i hne
    exact absurd h (hne _ _ _)

theorem chunks_end (h : read reads block = (piece, reads')) (hp : piece = none ∨ piece = some []) :
    chunks block reads = [] := by
  rw [chunks]
  split
  · rename_i h'
    rw [h] at h'
    cases h'
    cases hp with
    | inl hp => cases hp
    | inr hp => cases hp
  · rfl

/-- Whatever the size of a block, the pieces are all that is ahead. -/
theorem chunks_flatten (hblock : 0 < block) (reads : List (Option (List UInt8))) :
    (chunks block reads).flatten = ahead reads := by
  induction hk : pendingReads reads using Nat.strong_induction_on generalizing reads with
  | _ k ih =>
    cases hread : read reads block with
    | mk piece reads' =>
      cases piece with
      | none =>
        rw [chunks_end hread (.inl rfl), (read_fails hread).1]
        rfl
      | some piece =>
        cases piece with
        | nil =>
          obtain ⟨hahead, _⟩ := read_end hread
          rw [chunks_end hread (.inr rfl)]
          cases hcoming : ahead reads with
          | nil => rfl
          | cons c rest =>
            rw [hcoming, List.take_eq_nil_iff] at hahead
            obtain hzero | hnil := hahead
            · omega
            · cases hnil
        | cons c piece =>
          have hless : pendingReads reads' < k := hk ▸ read_pending hread (List.cons_ne_nil _ _)
          obtain ⟨hahead, _⟩ := read_piece (List.cons_ne_nil _ _) hread
          rw [chunks_more hread, List.flatten_cons, ih _ hless _ rfl, hahead]

/-- How a stream comes to an end: it fails if a read does, or if no more is carried. -/
def Ends (cut : Prop) (w' : World) (rc : Int) : Prop :=
  rc = 0 ∧ ¬ cut ∨ rc ≠ 0 ∧ (cut ∨ w'.writes = [])

theorem streamLoop_offers {buf : Buf block} (hblock : 0 < block)
    (h : w.req.ssl = some ⟨i, false⟩) (hs : w.Steady) :
    Outcome (streamLoop reads buf 0) w (fun rc w' => Offers i (chunks block reads) w w' ∧
      Rests w w' ∧ Ends (failsAfter reads = true) w' rc) fun _ _ => False := by
  induction hk : pendingReads reads using Nat.strong_induction_on
      generalizing reads buf w with
  | _ k ih =>
    rw [streamLoop]
    split
    · rename_i reads' hread
      rw [Nat.sub_zero] at hread
      rw [chunks_end hread (.inl rfl)]
      exact .pure ⟨.refl i w, .refl w, .inr ⟨by decide, .inl (read_fails hread).2.1⟩⟩
    · rename_i reads' hread
      rw [Nat.sub_zero] at hread
      obtain ⟨hahead, hfails, _⟩ := read_end hread
      rw [chunks_end hread (.inr rfl), streamFlush]
      refine .pure ⟨.refl i w, .refl w, .inl ⟨rfl, fun hcut => hfails ⟨hcut, ?_⟩⟩⟩
      cases hcoming : ahead reads with
      | nil => exact Nat.zero_le _
      | cons c rest =>
        rw [hcoming, List.take_eq_nil_iff] at hahead
        obtain hzero | hnil := hahead
        · omega
        · cases hnil
    · rename_i c piece reads' hread
      rw [Nat.sub_zero] at hread
      have hlen := read_length hread
      obtain ⟨_, hfails, _⟩ := read_piece (List.cons_ne_nil _ _) hread
      obtain ⟨buf', hcopy, hstarts⟩ := buf.starts_nil.copyIn (c :: piece) (by simpa using hlen)
      rw [List.length_nil] at hcopy
      rw [List.nil_append] at hstarts
      rw [hcopy, Nat.zero_add]
      have hle : (c :: piece).length ≤ block := by omega
      apply Outcome.bind (.pure _)
      apply Outcome.andThen (geminiRequestWrite_offers h hs (by rwa [buf'.size]))
      intro nwrit w₁ hw₁
      obtain ⟨hoffers, hrests, hnwrit⟩ := hw₁
      rw [Buf.Starts.take_eq hstarts, inOne, if_neg (List.cons_ne_nil _ _)] at hoffers
      rw [chunks_more hread]
      cases hnwrit with
      | inl hall =>
        rw [if_neg (by omega)]
        obtain ⟨buf₁, hmove⟩ := moveDown_all buf' hle
        rw [hall, Int.toNat_natCast, hmove]
        apply Outcome.bind (.pure _)
        have hless : pendingReads reads' < k := hk ▸ read_pending hread (List.cons_ne_nil _ _)
        apply (ih _ hless (by rw [hrests.req, h]) (hoffers.steady hs) rfl).imp
        intro rc w' hw'
        obtain ⟨hoffers', hrests', hends⟩ := hw'
        rw [← hfails] at hends
        exact ⟨hoffers.trans hoffers', hrests.trans hrests', hends⟩
      | inr hnone =>
        obtain ⟨rfl, hfull⟩ := hnone
        exact .pure ⟨hoffers.full hfull _, hrests, .inr ⟨by decide, .inr hfull⟩⟩

/-- The pieces a stream is offered in; without a transfer buffer there are none. -/
def streamed (calls : Calls) (block : Nat) : List (List UInt8) :=
  match calls.block with
  | none => []
  | some _ => chunks block calls.reads

def Calls.Cut (calls : Calls) : Prop := calls.block.isNone ∨ failsAfter calls.reads = true

instance (calls : Calls) : Decidable calls.Cut := inferInstanceAs (Decidable (_ ∨ _))

theorem geminiRequestStream_offers (calls : Calls) (hblock : 0 < block)
    (h : w.req.ssl = some ⟨i, false⟩) (hs : w.Steady) :
    Outcome (geminiRequestStream calls.block calls.reads block) w (fun rc w' =>
      Offers i (streamed calls block) w w' ∧ Rests w w' ∧ Ends calls.Cut w' rc)
      fun _ _ => False := by
  unfold streamed Calls.Cut geminiRequestStream
  cases calls.block with
  | none => exact .pure ⟨.refl i w, .refl w, .inr ⟨by decide, .inl (.inl rfl)⟩⟩
  | some mem => simpa using streamLoop_offers hblock h hs

end Geminon
