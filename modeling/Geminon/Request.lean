import Geminon.World

namespace Geminon
open Memory Descriptors Process
set_option autoImplicit true

abbrev Taken (n : Nat) := {k : Nat // 0 < k ∧ k ≤ n}

def Ssl.taken (ssl : Ssl) (k : Nat) (h : 0 < n) : Taken n :=
  if ssl.partialWrite then ⟨max 1 (min k n), by omega⟩ else ⟨n, h, Nat.le_refl n⟩

def loadRun (buf : List UInt8) (cursor n : Nat) : Except Fault {s : List UInt8 // s.length = n} :=
  if h : cursor + n ≤ buf.length then
    .ok ⟨(buf.drop cursor).take n, by rw [List.length_take, List.length_drop]; omega⟩
  else .error (.load buf.length)

def sslWriteEx (ssl : Option Ssl) (octets : List UInt8) (h : 0 < octets.length) :
    Proc World (Option (Taken octets.length)) :=
  match ssl with
  | none => throw .null
  | some ssl => modifyGet fun w =>
    match w.writes with
    | some k :: writes =>
      let taken := ssl.taken k h
      (some taken, { w with writes, log := w.log ++ [.sent ssl.conn (octets.take taken)] })
    | none :: writes => (none, { w with writes })
    | [] => (none, w)

/-- The loop of `gemini_request_write`, which moves its pointer by the `n` it has just lowered. -/
def geminiRequestWriteLoop (buf : List UInt8) (cursor n ntotal : Nat) : Proc World Int :=
  if h : 0 < n then do
    let ⟨octets, hlen⟩ ← checked (loadRun buf cursor n)
    match ← sslWriteEx (← get).req.ssl octets (hlen ▸ h) with
    | none => pure (-1)
    | some ⟨nwrit, _, _⟩ =>
      geminiRequestWriteLoop buf (cursor + (n - nwrit)) (n - nwrit) (ntotal + nwrit)
  else pure ntotal
termination_by n

def geminiRequestWrite (buf : List UInt8) (n : Nat) : Proc World Int :=
  geminiRequestWriteLoop buf 0 n 0

def digitOctet (d : Int) : UInt8 := UInt8.ofInt (48 + d)

def statusLine (status : Int) (text : CStr) : Except Fault (Buf geminiMaxResponse) := do
  let buf := Buf.zeroed geminiMaxResponse
  let buf ← buf.store 0 (digitOctet ((status.tdiv 10).tmod 10))
  let buf ← buf.store 1 (digitOctet (status.tmod 10))
  let buf ← buf.store 2 32
  let room := geminiMaxResponse - 3 - 2 - 1
  let buf ← buf.copyIn 3
    (text.octets.take room ++ List.replicate (room - text.length) 0)
  let n ← buf.strlen
  buf.copyIn n (crlf ++ [0])

def geminiRequestRespond (status : Int) (text : CStr) : Proc World Int := do
  match (← get).req.ssl with
  | none => throw .null
  | some ssl =>
    emit (.responded ssl.conn status)
    let buf ← checked (statusLine status text)
    let n ← checked buf.strlen
    geminiRequestWrite buf.octets n

/-- `read` delivers no more than it was asked for, and nothing at the end. -/
def read (reads : List (Option (List UInt8))) (want : Nat) :
    Option (List UInt8) × List (Option (List UInt8)) :=
  match reads with
  | [] => (some [], [])
  | none :: reads => (none, reads)
  | some piece :: reads =>
    if piece.length ≤ want then (some piece, reads)
    else (some (piece.take want), some (piece.drop want) :: reads)

def pendingReads (reads : List (Option (List UInt8))) : Nat :=
  (reads.map fun piece => (piece.getD []).length + 1).sum

theorem read_pending (h : read reads want = (some piece, reads')) (hne : piece ≠ []) :
    pendingReads reads' < pendingReads reads := by
  unfold read at h
  split at h
  · cases h
    exact absurd rfl hne
  · cases h
  · split at h
    · cases h
      simp [pendingReads]
    · rename_i hlong
      cases h
      have hpos := List.length_pos_iff.2 hne
      rw [List.length_take] at hpos
      simp only [pendingReads, List.map_cons, List.sum_cons, Option.getD_some, List.length_drop]
      omega

/-- `memmove(buf, buf + nwrit, n - nwrit)` -/
def moveDown (buf : Buf block) (n nwrit : Nat) : Except Fault (Buf block × Nat) := do
  let left ← sizeSub n nwrit
  let ⟨octets, _⟩ ← loadRun buf.octets nwrit left
  let buf ← buf.copyIn 0 octets
  .ok (buf, left)

/-- The second loop of `gemini_request_stream`: each turn asks for at least one octet less. -/
def streamFlush (buf : Buf block) : Nat → Nat → Proc World Int
  | _, 0 => pure 0
  | 0, _ + 1 => throw .endless
  | turns + 1, n + 1 => do
    let nwrit ← geminiRequestWrite buf.octets (n + 1)
    if nwrit < 0 then pure nwrit
    else
      let (buf, n) ← checked (moveDown buf (n + 1) nwrit.toNat)
      streamFlush buf turns n

/-- The first loop of `gemini_request_stream`, with `n` octets of the buffer in use. -/
def streamLoop (reads : List (Option (List UInt8))) (buf : Buf block) (n : Nat) :
    Proc World Int :=
  match _h : read reads (block - n) with
  | (none, _) => pure (-1)
  | (some [], _) => streamFlush buf n n
  | (some (c :: piece), reads) => do
    let buf ← checked (buf.copyIn n (c :: piece))
    let n := n + (c :: piece).length
    let nwrit ← geminiRequestWrite buf.octets n
    if nwrit < 0 then pure nwrit
    else
      let (buf, n) ← checked (moveDown buf n nwrit.toNat)
      streamLoop reads buf n
termination_by pendingReads reads
decreasing_by exact read_pending _h (List.cons_ne_nil _ _)

/-- The descriptor is known here by what its reads bring. -/
def geminiRequestStream (malloc : Malloc) (reads : List (Option (List UInt8))) (block : Nat) :
    Proc World Int :=
  match malloc with
  | none => pure (-1)
  | some mem => streamLoop reads (Buf.filled block mem) 0

def geminiRequestClose : Proc World Unit := do
  if (← get).req.ssl.isSome then
    modify fun w => { w with req.ssl := none }
  if 0 ≤ (← get).req.fd then
    closeFd (← get).req.fd.toNat
    modify fun w => { w with req.fd := -1 }
  if (← get).req.url.isSome then
    modify fun w => { w with req.url := none }

def IsSent (i : Nat) (e : Event) : Prop := ∃ octets, e = .sent i octets

theorem not_leaky_sent (h : ∀ e ∈ events, IsSent i e) : ¬ Leaky events := by
  refine not_leaky fun e he hl => ?_
  obtain ⟨octets, rfl⟩ := h e he
  exact hl

theorem digitOctet_ne (d : Int) : digitOctet (d.tmod 10) ≠ 0 := by
  have hlow := Int.lt_tmod_of_pos d (b := 10) (by decide)
  have hhigh := Int.tmod_lt_of_pos d (b := 10) (by decide)
  generalize d.tmod 10 = e at hlow hhigh
  intro h
  have hnat := congrArg UInt8.toNat h
  simp [digitOctet, UInt8.ofInt] at hnat
  omega

theorem statusLine_holds (status : Int) (text : CStr) :
    ∃ buf, statusLine status text = .ok buf ∧
      buf.Holds ([digitOctet ((status.tdiv 10).tmod 10), digitOctet (status.tmod 10), 32] ++
        text.octets.take 250 ++ crlf) := by
  have hmax : geminiMaxResponse = 256 := rfl
  obtain ⟨b₀, h₀, c₀⟩ := (Buf.Clean.zeroed geminiMaxResponse).store
    (digitOctet_ne (status.tdiv 10)) (by simp [hmax])
  obtain ⟨b₁, h₁, c₁⟩ := c₀.store (digitOctet_ne status) (by simp [hmax])
  obtain ⟨b₂, h₂, c₂⟩ := c₁.store (show (32 : UInt8) ≠ 0 by decide) (by simp [hmax])
  have hnul : 0 ∉ text.octets.take 250 := fun hm => text.noNul (List.mem_of_mem_take hm)
  have hlen : text.octets.length = text.length := rfl
  obtain ⟨b₃, h₃, c₃⟩ := c₂.copyIn (k := 250 - text.length) hnul (by simp; omega)
  have hheld := c₃.holds (by simp; omega)
  obtain ⟨b₄, h₄, s₄⟩ := hheld.starts.copyIn (crlf ++ [0]) (by simp [crlf]; omega)
  refine ⟨b₄, ?_, ?_⟩
  · change (Buf.zeroed geminiMaxResponse).store 0 _ = _ at h₀
    change b₀.store 1 _ = _ at h₁
    change b₁.store 2 _ = _ at h₂
    change b₂.copyIn 3 _ = _ at h₃
    have hroom : geminiMaxResponse - 3 - 2 - 1 = 250 := rfl
    simp only [statusLine, bind, Except.bind, h₀, h₁, h₂, hroom, h₃, hheld.strlen_eq, h₄]
  · rw [← List.append_assoc] at s₄
    apply s₄.holds
    have hcrlf : 0 ∉ crlf := by decide
    exact fun hm => (List.mem_append.1 hm).elim hheld.1 hcrlf

theorem sslWriteEx_sent (h : w.req.ssl = some ⟨i, false⟩) (hpos : 0 < octets.length) :
    Outcome (sslWriteEx w.req.ssl octets hpos) w (fun taken w' => ∃ events,
      Passed w w' events ∧ (∀ e ∈ events, IsSent i e) ∧
        ∀ k, taken = some k → k.1 = octets.length) fun _ _ => False := by
  rw [h]
  apply Outcome.modifyGet
  split
  · rename_i k writes hwrites
    have hall : ∀ e ∈ [Event.sent i octets], IsSent i e := by
      intro e he
      exact ⟨octets, List.mem_singleton.1 he⟩
    refine ⟨[.sent i octets], ⟨⟨rfl, rfl, fun _ _ _ => rfl, ?_⟩, .refl _ (not_leaky_sent hall)⟩,
      hall, ?_⟩
    · change w.log ++ [.sent i (octets.take octets.length)] = _
      rw [List.take_length]
    · intro _ hsome
      cases hsome
      rfl
  · exact ⟨[], ⟨⟨rfl, rfl, fun _ _ _ => rfl, by simp⟩, .refl _ leaky_nil⟩, by simp, by simp⟩
  · exact ⟨[], .refl w, by simp, by simp⟩

theorem geminiRequestWrite_sent {buf : List UInt8} (h : w.req.ssl = some ⟨i, false⟩)
    (hn : n ≤ buf.length) :
    Outcome (geminiRequestWrite buf n) w (fun r w' => ∃ events, Passed w w' events ∧
      (∀ e ∈ events, IsSent i e) ∧ (r < 0 ∨ r = n)) fun _ _ => False := by
  unfold geminiRequestWrite
  rw [geminiRequestWriteLoop]
  split
  · rename_i hpos
    have hrun : 0 + n ≤ buf.length := by rwa [Nat.zero_add]
    refine .bind (.checked (fun run _ => ?_) fun fault he => ?_)
    · obtain ⟨octets, rfl⟩ := run
      refine .bind (.get (.andThen (sslWriteEx_sent h hpos) ?_))
      intro taken w' hw'
      obtain ⟨events, hp, hsent, htaken⟩ := hw'
      cases taken with
      | none => exact .pure ⟨events, hp, hsent, .inl (by decide)⟩
      | some k =>
        have hk := htaken k rfl
        obtain ⟨k, hk0, hkn⟩ := k
        cases hk
        change Outcome (geminiRequestWriteLoop _ _ _ _) w' _ _
        rw [geminiRequestWriteLoop, dif_neg (by omega)]
        exact .pure ⟨events, hp, hsent, .inr (by simp)⟩
    · rw [loadRun, dif_pos hrun] at he
      cases he
  · rename_i hpos
    exact .pure ⟨[], .refl w, by simp, .inr (by omega)⟩

/-- One call begins one reply and sends nothing else. -/
theorem geminiRequestRespond_sent (h : w.req.ssl = some ⟨i, false⟩) (status : Int) (text : CStr) :
    Outcome (geminiRequestRespond status text) w (fun _ w' => ∃ sent,
      Passed w w' (.responded i status :: sent) ∧ ∀ e ∈ sent, IsSent i e)
      fun _ _ => False := by
  unfold geminiRequestRespond
  apply Outcome.bind (.get _)
  simp only [h]
  have hbegin : ¬ Event.Leaks (.responded i status) := id
  apply Outcome.andThen (emit_passed w hbegin)
  intro _ w₁ hw₁
  obtain ⟨hw₁, _⟩ := hw₁
  obtain ⟨buf, hline, hheld⟩ := statusLine_holds status text
  refine .bind (.checked (fun buf' hbuf' => ?_) fun fault he => ?_)
  · rw [hline] at hbuf'
    cases hbuf'
    refine .bind (.checked (fun n hstrlen => ?_) fun fault he => ?_)
    · rw [hheld.strlen_eq] at hstrlen
      cases hstrlen
      have hroom := hheld.length_lt.le.trans_eq buf.size.symm
      have hssl : w₁.req.ssl = some ⟨i, false⟩ := by rw [hw₁.req, h]
      apply (geminiRequestWrite_sent hssl hroom).imp
      intro _ w' hw'
      obtain ⟨sent, hw', hsent, _⟩ := hw'
      exact ⟨sent, hw₁.trans hw', hsent⟩
    · rw [hheld.strlen_eq] at he
      cases he
  · rw [hline] at he
    cases he

theorem read_length (h : read reads want = (some piece, reads')) : piece.length ≤ want := by
  unfold read at h
  split at h
  · cases h
    exact Nat.zero_le _
  · cases h
  · split at h
    · cases h
      assumption
    · cases h
      rw [List.length_take]
      exact Nat.min_le_left _ _

theorem moveDown_all (buf : Buf block) (hn : n ≤ block) :
    ∃ buf', moveDown buf n n = .ok (buf', 0) := by
  have hrun : n + 0 ≤ buf.octets.length := by rwa [buf.size]
  obtain ⟨buf', hcopy, _⟩ := buf.starts_nil.copyIn ((buf.octets.drop n).take 0) (by simp)
  rw [List.length_nil] at hcopy
  refine ⟨buf', ?_⟩
  simp only [moveDown, sizeSub_of_le (Nat.le_refl n), Nat.sub_self, bind, Except.bind, loadRun,
    dif_pos hrun, hcopy]

theorem writeAndMove_sent {buf : Buf block} {next : Buf block × Nat → Proc World Int}
    (h : w.req.ssl = some ⟨i, false⟩) (hn : n ≤ block)
    (hnext : ∀ buf' w' events, Passed w w' events → (∀ e ∈ events, IsSent i e) →
      Outcome (next (buf', 0)) w' Q fun _ _ => False)
    (hfail : ∀ r w' events, Passed w w' events → (∀ e ∈ events, IsSent i e) → Q r w') :
    Outcome (do
      let nwrit ← geminiRequestWrite buf.octets n
      if nwrit < 0 then pure nwrit
      else
        let moved ← checked (moveDown buf n nwrit.toNat)
        next moved) w Q fun _ _ => False := by
  apply Outcome.andThen (geminiRequestWrite_sent h (by rwa [buf.size]))
  intro nwrit w' hw'
  obtain ⟨events, hw', hsent, hall⟩ := hw'
  split
  · exact .pure (hfail nwrit w' events hw' hsent)
  · obtain ⟨buf', hmove⟩ := moveDown_all buf hn
    have hnwrit : nwrit.toNat = n := by omega
    rw [hnwrit, hmove]
    exact .bind (.pure (hnext buf' w' events hw' hsent))

theorem streamFlush_sent {buf : Buf block} (h : w.req.ssl = some ⟨i, false⟩) (hn : n ≤ block) :
    Outcome (streamFlush buf n n) w (fun _ w' => ∃ events, Passed w w' events ∧
      ∀ e ∈ events, IsSent i e) fun _ _ => False := by
  cases n with
  | zero =>
    rw [streamFlush]
    exact .pure ⟨[], .refl w, by simp⟩
  | succ n =>
    rw [streamFlush]
    refine writeAndMove_sent h hn ?_ ?_
    · intro buf' w' events hw' hsent
      change Outcome (streamFlush buf' n 0) _ _ _
      rw [streamFlush]
      exact .pure ⟨events, hw', hsent⟩
    · intro r w' events hw' hsent
      exact ⟨events, hw', hsent⟩

theorem streamLoop_sent {buf : Buf block} (h : w.req.ssl = some ⟨i, false⟩) :
    Outcome (streamLoop reads buf 0) w (fun _ w' => ∃ events, Passed w w' events ∧
      ∀ e ∈ events, IsSent i e) fun _ _ => False := by
  induction hk : pendingReads reads using Nat.strong_induction_on
      generalizing reads buf w with
  | _ k ih =>
    rw [streamLoop]
    split
    · exact .pure ⟨[], .refl w, by simp⟩
    · exact streamFlush_sent h (Nat.zero_le _)
    · rename_i c piece reads' hread
      have hlen := read_length hread
      obtain ⟨buf', hcopy, _⟩ := buf.starts_nil.copyIn (c :: piece) (by simpa using hlen)
      rw [List.length_nil] at hcopy
      rw [hcopy]
      apply Outcome.bind (.pure _)
      refine writeAndMove_sent h (by omega) ?_ ?_
      · intro buf₁ w₁ events hw₁ hsent
        have hssl : w₁.req.ssl = some ⟨i, false⟩ := by rw [hw₁.req, h]
        have hless : pendingReads reads' < k := hk ▸ read_pending hread (List.cons_ne_nil _ _)
        apply (ih _ hless hssl rfl).imp
        intro _ w' hw'
        obtain ⟨events', hw', hsent'⟩ := hw'
        refine ⟨events ++ events', hw₁.trans hw', fun e he => ?_⟩
        exact (List.mem_append.1 he).elim (hsent e) (hsent' e)
      · intro r w' events hw' hsent
        exact ⟨events, hw', hsent⟩

theorem geminiRequestStream_sent (h : w.req.ssl = some ⟨i, false⟩) (malloc : Malloc)
    (reads : List (Option (List UInt8))) (block : Nat) :
    Outcome (geminiRequestStream malloc reads block) w (fun _ w' => ∃ events,
      Passed w w' events ∧ ∀ e ∈ events, IsSent i e) fun _ _ => False := by
  cases malloc with
  | none => exact .pure ⟨[], .refl w, by simp⟩
  | some mem => exact streamLoop_sent h

theorem geminiRequestClose_ended (h : Held i w fd) :
    Outcome geminiRequestClose w (fun _ w' => Ended w w' [.closed (.conn i)] ∧
      w'.calls = w.calls) fun _ _ => False := by
  have h0 : 0 ≤ w.req.fd := by
    rw [h.fd_eq]
    omega
  have hfd : w.req.fd.toNat = fd := by
    rw [h.fd_eq]
    rfl
  have hgrows (w' : World) (hreq : w'.req.fd = -1) (hfds : w'.fds = w.fds.close fd) :
      w.others.Grows (Leaky [.closed (.conn i)]) w'.others := by
    rw [World.others, World.others, if_pos h0, hfd, hreq, if_neg (by decide), hfds]
    exact .refl _ (not_leaky (by simp [Event.Leaks]))
  unfold geminiRequestClose
  apply Outcome.bind (.get _)
  simp only [h.ssl, Option.isSome_some, ↓reduceIte]
  refine .bind (.modify (.bind (.get ?_)))
  simp only [h0, ↓reduceIte]
  refine .bind (.get (.bind (.modify ?_)))
  simp only [hfd, h.isOpen]
  refine .bind (.modify (.bind (.get ?_)))
  split
  · exact .modify ⟨⟨rfl, rfl, rfl, hgrows _ rfl rfl⟩, rfl⟩
  · rename_i hurl
    have hnone : w.req.url = none := by simpa using hurl
    exact .pure ⟨⟨by simp [hnone], rfl, rfl, hgrows _ rfl rfl⟩, rfl⟩

theorem respondAndClose_ended (h : Held i w fd) (status : Int) (text : CStr) (a : α) :
    Outcome (do
      let _ ← geminiRequestRespond status text
      geminiRequestClose
      pure a) w (fun r w' => r = a ∧ ∃ sent,
        Ended w w' (.responded i status :: (sent ++ [.closed (.conn i)])) ∧
          ∀ e ∈ sent, IsSent i e) fun _ _ => False := by
  apply Outcome.andThen (geminiRequestRespond_sent h.ssl status text)
  intro _ w₁ hw₁
  obtain ⟨sent, hw₁, hsent⟩ := hw₁
  apply Outcome.andThen (geminiRequestClose_ended (h.kept hw₁.toKept))
  intro _ w' hw'
  obtain ⟨hw', _⟩ := hw'
  exact .pure ⟨rfl, sent, hw₁.ended hw', hsent⟩

end Geminon
